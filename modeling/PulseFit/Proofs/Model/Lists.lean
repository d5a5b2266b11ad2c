import Mathlib.Data.List.Pairwise
import PulseFit.Model.Lists
import PulseFit.Proofs.Model.Indices

/-!
# Proofs.Model.Lists — models made from index lists

Lists describe a model of `size` pulses if the pulse lists share out `1..size` and the residual
lists hold some of these numbers, none twice (`IndexLists.Describes`).  `ofLists` accepts such lists
only (`describes_of_ofLists`), and the model that it makes has the given lists, sorted
(`indices_of_ofLists`).  The lists of a model describe it, and it is read from them again
(`ofLists_lists`).
-/

namespace PulseFit

/-- A number stands in one part only of a concatenation without repetition. -/
theorem eq_of_mem_of_nodup_flatMap {α β : Type} {xs : List α} {f : α → List β}
    (h : (xs.flatMap f).Nodup) {x y : α} (hx : x ∈ xs) (hy : y ∈ xs) {b : β} (hbx : b ∈ f x)
    (hby : b ∈ f y) : x = y := by
  by_contra hne
  have hdisj := (List.nodup_flatMap.mp h).2
  have hsymm : Std.Symm (Function.onFun (List.Disjoint (α := β)) f) :=
    ⟨fun _ _ hd => List.disjoint_symm hd⟩
  exact (hdisj.forall hx hy hne) hbx hby

/-- A search through all the parts finds the one that a number stands in. -/
theorem find?_contains_iff {α : Type} {all : List α} {f : α → List Nat} {i : Nat} {x : α}
    (hall : ∀ y, y ∈ all) (hnodup : (all.flatMap f).Nodup) :
    (all.find? fun y => (f y).contains i) = some x ↔ i ∈ f x := by
  constructor
  · intro hf
    have hx := List.find?_some hf
    simpa using hx
  · intro hi
    cases hf : all.find? fun y => (f y).contains i with
    | none => exact absurd hi (by simpa using List.find?_eq_none.mp hf x (hall x))
    | some y =>
      have hy : i ∈ f y := by
        have hy := List.find?_some hf
        simpa using hy
      rw [eq_of_mem_of_nodup_flatMap hnodup (hall x) (hall y) hi hy]

theorem getElem?_filterMap {α β : Type} {f : α → Option β} {xs : List α}
    (h : ∀ x ∈ xs, (f x).isSome) (j : Nat) : (xs.filterMap f)[j]? = xs[j]?.bind f := by
  induction xs generalizing j with
  | nil => rfl
  | cons x xs ih =>
    obtain ⟨b, hb⟩ := Option.isSome_iff_exists.mp (h x List.mem_cons_self)
    rw [List.filterMap_cons_some hb]
    cases j with
    | zero => simp [hb]
    | succ j => simpa using ih (fun y hy => h y (List.mem_cons_of_mem x hy)) j

/-- An entry of an ascending list that differs from its successor stands there once. -/
theorem notMem_of_ne_next {i j : Nat} {rest : List Nat} (h : (i :: j :: rest).Pairwise (· ≤ ·))
    (hij : i ≠ j) : i ∉ j :: rest := by
  intro hmem
  obtain ⟨hi, hrest⟩ := List.pairwise_cons.mp h
  -- all that follows is at least `j`, which is above `i`
  have hji : j ≤ i := by
    obtain rfl | hmem := List.mem_cons.mp hmem
    · exact absurd rfl hij
    · exact (List.pairwise_cons.mp hrest).1 i hmem
  exact hij (Nat.le_antisymm (hi j List.mem_cons_self) hji)

theorem nodup_of_firstRepeat? {xs : List Nat} (h : xs.Pairwise (· ≤ ·))
    (hn : firstRepeat? xs = none) : xs.Nodup := by
  induction xs with
  | nil => exact List.nodup_nil
  | cons i xs ih =>
    cases xs with
    | nil => exact List.nodup_singleton i
    | cons j rest =>
      rw [firstRepeat?] at hn
      split at hn
      · cases hn
      · next hij =>
        exact List.nodup_cons.mpr ⟨notMem_of_ne_next h hij, ih (List.pairwise_cons.mp h).2 hn⟩

theorem pairwise_mergeSort_nat (xs : List Nat) : xs.mergeSort.Pairwise (· ≤ ·) := by
  have h : xs.mergeSort.Pairwise fun a b => decide (a ≤ b) = true :=
    List.pairwise_mergeSort
      (fun a b c hab hbc => by simp only [decide_eq_true_eq] at *; omega)
      (fun a b => by simp only [Bool.or_eq_true, decide_eq_true_eq]; omega) xs
  exact h.imp fun hab => by simpa using hab

/-- Sorting gives the one ascending list of the entries. -/
theorem mergeSort_eq_of_perm {xs ys : List Nat} (h : xs.Perm ys) (hys : ys.Pairwise (· ≤ ·)) :
    xs.mergeSort = ys :=
  ((List.mergeSort_perm _ _).trans h).eq_of_pairwise
    (fun _ _ _ _ hab hba => Nat.le_antisymm hab hba) (pairwise_mergeSort_nat xs) hys

theorem mergeSort_congr {xs ys : List Nat} (h : xs.Perm ys) : xs.mergeSort = ys.mergeSort :=
  mergeSort_eq_of_perm (h.trans (List.mergeSort_perm _ _).symm) (pairwise_mergeSort_nat ys)

theorem PulseShape.mem_all (s : PulseShape) : s ∈ PulseShape.all := by cases s <;> decide

theorem ResidualShape.mem_all (r : ResidualShape) : r ∈ ResidualShape.all := by cases r <;> decide

theorem PulseShape.nodup_all : PulseShape.all.Nodup := by decide

theorem ResidualShape.nodup_all : ResidualShape.all.Nodup := by decide

namespace IndexLists

/-- Lists that describe a model of `size` pulses. -/
structure Describes (l : IndexLists) (size : Nat) : Prop where
  numbers : l.pulseNumbers = List.range' 1 size
  owners_nodup : l.owners.Nodup
  owner_mem : ∀ i ∈ l.owners, i ∈ List.range' 1 size

variable {l : IndexLists} {size : Nat}

theorem get_ofFn (f : Component → List Nat) (c : Component) : (ofFn f).get c = f c := by
  rcases c with (_ | _ | _ | _) | (_ | _) <;> rfl

theorem mem_pulseNumbers {i : Nat} : i ∈ l.pulseNumbers ↔ ∃ s, i ∈ l.get (.pulse s) := by
  rw [pulseNumbers, List.mem_mergeSort, List.mem_flatMap]
  constructor
  · rintro ⟨s, -, hi⟩
    exact ⟨s, hi⟩
  · rintro ⟨s, hi⟩
    exact ⟨s, s.mem_all, hi⟩

theorem mem_owners {i : Nat} : i ∈ l.owners ↔ ∃ r, i ∈ l.get (.residual r) := by
  rw [owners, List.mem_mergeSort, List.mem_flatMap]
  constructor
  · rintro ⟨r, -, hi⟩
    exact ⟨r, hi⟩
  · rintro ⟨r, hi⟩
    exact ⟨r, r.mem_all, hi⟩

/-- The pulse lists are read as `1..size` exactly if they are a permutation of it. -/
theorem pulseNumbers_eq_range'_iff :
    l.pulseNumbers = List.range' 1 size ↔
      (PulseShape.all.flatMap fun s => l.get (.pulse s)).Perm (List.range' 1 size) := by
  constructor
  · intro h
    rw [← h]
    exact (List.mergeSort_perm _ _).symm
  · intro h
    exact mergeSort_eq_of_perm h (List.Pairwise.imp Nat.le_of_lt List.pairwise_lt_range')

/-- Lists describe a model exactly if the pulse lists are a permutation of the numbers, and the
residual lists hold some of them, none twice; the order within the lists does not matter. -/
theorem describes_iff :
    l.Describes size ↔
      (PulseShape.all.flatMap fun s => l.get (.pulse s)).Perm (List.range' 1 size) ∧
        (ResidualShape.all.flatMap fun r => l.get (.residual r)).Nodup ∧
        ∀ i ∈ ResidualShape.all.flatMap fun r => l.get (.residual r), i ∈ List.range' 1 size := by
  have howners : l.owners.Perm (ResidualShape.all.flatMap fun r => l.get (.residual r)) :=
    List.mergeSort_perm _ _
  constructor
  · intro h
    exact ⟨pulseNumbers_eq_range'_iff.mp h.numbers, howners.nodup_iff.mp h.owners_nodup,
      fun i hi => h.owner_mem i (howners.mem_iff.mpr hi)⟩
  · rintro ⟨hpulses, hnodup, hmem⟩
    exact ⟨pulseNumbers_eq_range'_iff.mpr hpulses, howners.nodup_iff.mpr hnodup,
      fun i hi => hmem i (howners.mem_iff.mp hi)⟩

namespace Describes

variable (h : l.Describes size)
include h

theorem nodup_pulses : (PulseShape.all.flatMap fun s => l.get (.pulse s)).Nodup := by
  have hn : l.pulseNumbers.Nodup := by
    rw [h.numbers]
    exact List.nodup_range'
  exact (List.mergeSort_perm _ _).nodup_iff.mp hn

theorem nodup_residuals : (ResidualShape.all.flatMap fun r => l.get (.residual r)).Nodup :=
  (List.mergeSort_perm _ _).nodup_iff.mp h.owners_nodup

theorem nodup_get (c : Component) : (l.get c).Nodup := by
  cases c with
  | pulse s => exact (List.nodup_flatMap.mp h.nodup_pulses).1 s s.mem_all
  | residual r => exact (List.nodup_flatMap.mp h.nodup_residuals).1 r r.mem_all

theorem find?_pulse {i : Nat} {s : PulseShape} :
    (PulseShape.all.find? fun s => (l.get (.pulse s)).contains i) = some s ↔
      i ∈ l.get (.pulse s) :=
  find?_contains_iff PulseShape.mem_all h.nodup_pulses

theorem find?_residual {i : Nat} {r : ResidualShape} :
    (ResidualShape.all.find? fun r => (l.get (.residual r)).contains i) = some r ↔
      i ∈ l.get (.residual r) :=
  find?_contains_iff ResidualShape.mem_all h.nodup_residuals

/-- A number has a pulse exactly if it lies in `1..size`. -/
theorem isSome_pulse? {i : Nat} : (l.pulse? i).isSome ↔ i ∈ List.range' 1 size := by
  rw [← h.numbers, mem_pulseNumbers, pulse?, Option.isSome_map, Option.isSome_iff_exists]
  exact exists_congr fun s => h.find?_pulse

/-- The pulse of a number has the components whose lists hold the number. -/
theorem has_pulse?_iff {i : Nat} {c : Component} :
    (∃ p, l.pulse? i = some p ∧ p.has c = true) ↔ i ∈ l.get c := by
  cases c with
  | pulse s =>
    rw [← h.find?_pulse]
    simp [pulse?]
  | residual r =>
    rw [← h.find?_residual]
    constructor
    · rintro ⟨p, hp, hc⟩
      obtain ⟨s, -, rfl⟩ := Option.map_eq_some_iff.mp hp
      exact Pulse.has_residual.mp hc
    · intro hr
      -- the owner of a residual is a pulse
      have hown : i ∈ l.owners := mem_owners.mpr ⟨r, h.find?_residual.mp hr⟩
      obtain ⟨p, hp⟩ := Option.isSome_iff_exists.mp (h.isSome_pulse?.mpr (h.owner_mem i hown))
      refine ⟨p, hp, ?_⟩
      obtain ⟨s, -, rfl⟩ := Option.map_eq_some_iff.mp hp
      exact Pulse.has_residual.mpr hr

/-- The pulses of the lists, in the order of their numbers. -/
theorem getElem?_pulses (j : Nat) :
    (l.pulseNumbers.filterMap l.pulse?)[j]? = l.pulse? (j + 1) := by
  have hsome : ∀ i ∈ l.pulseNumbers, (l.pulse? i).isSome := by
    intro i hi
    exact h.isSome_pulse?.mpr (h.numbers ▸ hi)
  rw [getElem?_filterMap hsome, h.numbers]
  by_cases hj : j < size
  · rw [List.getElem?_range' hj, Option.bind_some, Nat.one_mul, Nat.add_comm]
  · have hnone : ¬ (l.pulse? (j + 1)).isSome := by
      rw [h.isSome_pulse?, List.mem_range'_1]
      omega
    rw [List.getElem?_eq_none (by simpa using hj), Option.not_isSome_iff_eq_none.mp hnone]
    rfl

end Describes

end IndexLists

namespace Pulse

/-- A pulse is known by the components that it has. -/
theorem ext_has {p q : Pulse} (h : ∀ c, p.has c = true ↔ q.has c = true) : p = q := by
  obtain ⟨shape, residual⟩ := p
  obtain ⟨shape', residual'⟩ := q
  obtain rfl : shape' = shape := has_pulse.mp ((h (.pulse shape)).mp (by simp))
  obtain rfl : residual = residual' := by
    refine Option.ext fun r => ?_
    simpa using h (.residual r)
  rfl

/-- A pulse that there may be is known by the components that it has. -/
theorem eq_of_has_iff {p? q? : Option Pulse}
    (h : ∀ c, (∃ p, p? = some p ∧ p.has c = true) ↔ ∃ q, q? = some q ∧ q.has c = true) :
    p? = q? := by
  cases p? with
  | none =>
    cases q? with
    | none => rfl
    | some q =>
      obtain ⟨-, ⟨⟩, -⟩ := (h (.pulse q.shape)).mpr ⟨q, rfl, by simp⟩
  | some p =>
    cases q? with
    | none =>
      obtain ⟨-, ⟨⟩, -⟩ := (h (.pulse p.shape)).mp ⟨p, rfl, by simp⟩
    | some q => exact congrArg some (ext_has fun c => by simpa using h c)

end Pulse

namespace Model

variable {lensed : Bool} {l : IndexLists} {m : Model}

/-- What is accepted, and what is made of it. -/
theorem describes_of_ofLists (h : ofLists lensed l = .ok m) :
    l.Describes l.pulseNumbers.length ∧
      m = { lensed, pulses := l.pulseNumbers.filterMap l.pulse? } := by
  simp only [ofLists] at h
  split at h
  · cases h
  · split at h
    · cases h
    · next hrange =>
      split at h
      · cases h
      · next hfind =>
        split at h
        · cases h
        · next hrep =>
          cases h
          refine ⟨⟨not_not.mp hrange, ?_, fun i hi => ?_⟩, rfl⟩
          · exact nodup_of_firstRepeat? (pairwise_mergeSort_nat _) hrep
          · have hi := List.find?_eq_none.mp hfind i hi
            simp only [Bool.or_eq_true, beq_iff_eq, decide_eq_true_eq] at hi
            rw [List.mem_range'_1]
            omega

theorem firstRepeat?_of_nodup {xs : List Nat} (h : xs.Nodup) : firstRepeat? xs = none := by
  induction xs with
  | nil => rfl
  | cons i xs ih =>
    obtain ⟨hi, hrest⟩ := List.nodup_cons.mp h
    cases xs with
    | nil => rfl
    | cons j rest =>
      have hij : i ≠ j := fun hij => hi (hij ▸ List.mem_cons_self)
      rw [firstRepeat?, if_neg hij]
      exact ih hrest

/-- Lists that describe a model are accepted. -/
theorem ofLists_of_describes {size : Nat} (h : l.Describes size) (lensed : Bool) :
    ofLists lensed l = .ok { lensed, pulses := l.pulseNumbers.filterMap l.pulse? } := by
  have hlength : l.pulseNumbers.length = size := by rw [h.numbers, List.length_range']
  have hnodup : l.pulseNumbers.Nodup := by
    rw [h.numbers]
    exact List.nodup_range'
  have howner : l.owners.find? (fun i => i == 0 || l.pulseNumbers.length < i) = none := by
    rw [List.find?_eq_none]
    intro i hi
    have hi := List.mem_range'_1.mp (h.owner_mem i hi)
    simp only [hlength, Bool.or_eq_true, beq_iff_eq, decide_eq_true_eq]
    omega
  have hrange : ¬ l.pulseNumbers ≠ List.range' 1 l.pulseNumbers.length := by
    rw [hlength]
    exact not_not.mpr h.numbers
  simp only [ofLists, firstRepeat?_of_nodup hnodup, if_neg hrange, howner,
    firstRepeat?_of_nodup h.owners_nodup]

theorem get_lists (m : Model) (c : Component) : m.lists.get c = m.indices c :=
  IndexLists.get_ofFn m.indices c

/-- The lists of a model describe it. -/
theorem describes_lists (m : Model) : m.lists.Describes m.size := by
  have hpulses : (PulseShape.all.flatMap fun s => m.indices (.pulse s)).Nodup :=
    List.nodup_flatMap.mpr ⟨fun s _ => m.nodup_indices _,
      PulseShape.nodup_all.imp fun hne _ hi hi' => hne (shape_unique hi hi')⟩
  have hresiduals : (ResidualShape.all.flatMap fun r => m.indices (.residual r)).Nodup :=
    List.nodup_flatMap.mpr ⟨fun r _ => m.nodup_indices _,
      ResidualShape.nodup_all.imp fun hne _ hi hi' => hne (residual_unique hi hi')⟩
  simp only [IndexLists.describes_iff, get_lists]
  refine ⟨(List.perm_ext_iff_of_nodup hpulses List.nodup_range').mpr fun i => ⟨fun hi => ?_,
    fun hi => ?_⟩, hresiduals, fun i hi => ?_⟩
  · obtain ⟨s, -, hi⟩ := List.mem_flatMap.mp hi
    exact mem_range_of_mem_indices hi
  · obtain ⟨s, hi⟩ := exists_shape_of_mem_range hi
    exact List.mem_flatMap.mpr ⟨s, s.mem_all, hi⟩
  · obtain ⟨r, -, hi⟩ := List.mem_flatMap.mp hi
    exact mem_range_of_mem_indices hi

/-- The lists of the model are the given ones, sorted. -/
theorem indices_of_ofLists (h : ofLists lensed l = .ok m) (c : Component) :
    m.indices c = (l.get c).mergeSort := by
  obtain ⟨hd, rfl⟩ := describes_of_ofLists h
  have hmem : ∀ i, i ∈ Model.indices ⟨lensed, l.pulseNumbers.filterMap l.pulse?, none⟩ c ↔
      i ∈ l.get c := by
    intro i
    rw [mem_indices, ← hd.has_pulse?_iff]
    constructor
    · rintro ⟨j, p, rfl, hj, hc⟩
      exact ⟨p, (hd.getElem?_pulses j).symm.trans hj, hc⟩
    · rintro ⟨p, hp, hc⟩
      have hi := hd.isSome_pulse?.mp (Option.isSome_iff_exists.mpr ⟨p, hp⟩)
      obtain ⟨j, rfl⟩ : ∃ j, i = j + 1 := ⟨i - 1, by rw [List.mem_range'_1] at hi; omega⟩
      exact ⟨j, p, rfl, (hd.getElem?_pulses j).trans hp, hc⟩
  have hperm := (List.perm_ext_iff_of_nodup (nodup_indices _ c) (hd.nodup_get c)).mpr hmem
  exact (mergeSort_eq_of_perm hperm.symm
    ((pairwise_indices _ c).imp fun hlt => Nat.le_of_lt hlt)).symm

/-- The pulse that the lists of a model give for a number is the one of that number. -/
theorem pulse?_lists (m : Model) (j : Nat) : m.lists.pulse? (j + 1) = m.pulses[j]? := by
  refine Pulse.eq_of_has_iff fun c => ?_
  rw [m.describes_lists.has_pulse?_iff, get_lists, mem_indices]
  constructor
  · rintro ⟨i, p, hi, hp, hc⟩
    obtain rfl := Nat.succ.inj hi
    exact ⟨p, hp, hc⟩
  · rintro ⟨p, hp, hc⟩
    exact ⟨j, p, rfl, hp, hc⟩

/-- The lists of a model are read as the model, without its name. -/
theorem ofLists_lists (m : Model) : ofLists m.lensed m.lists = .ok { m with name := none } := by
  have hpulses : m.lists.pulseNumbers.filterMap m.lists.pulse? = m.pulses := by
    refine List.ext_getElem? fun j => ?_
    rw [m.describes_lists.getElem?_pulses, pulse?_lists]
  rw [ofLists_of_describes m.describes_lists, hpulses]

/-- A model is known by its lens, its name and its lists. -/
theorem ext_indices {m m' : Model} (hlensed : m.lensed = m'.lensed) (hname : m.name = m'.name)
    (h : ∀ c, m.indices c = m'.indices c) : m = m' := by
  have hlists : m.lists = m'.lists := congrArg IndexLists.ofFn (funext h)
  have hread := m.ofLists_lists
  rw [hlensed, hlists, m'.ofLists_lists] at hread
  obtain ⟨lensed, pulses, name⟩ := m
  obtain ⟨lensed', pulses', name'⟩ := m'
  obtain rfl : lensed = lensed' := hlensed
  obtain rfl : name = name' := hname
  cases hread
  rfl

end Model

end PulseFit
