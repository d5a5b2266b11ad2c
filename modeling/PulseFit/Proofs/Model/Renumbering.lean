import Mathlib.Data.List.Perm.Basic
import Mathlib.Logic.Equiv.Basic
import PulseFit.Proofs.Assignment
import PulseFit.Proofs.Model.Keys
import PulseFit.Proofs.Model.Lists

/-!
# Proofs.Model.Renumbering — the pulses of a model under other numbers

A permutation of the pulses gives every pulse another number.  Lists of numbers, keys and names
follow it; what has no number stays as it is.  Renumbered lists of a model describe a model again,
which has the same components under their new numbers (`exists_renumbered`), and the names of the
parameters change without two of them becoming one (`renumberName_injective`).
-/

namespace PulseFit

variable {n : Nat}

/-! ## Numbers -/

theorem succ_mem_range (i : Fin n) : (i : Nat) + 1 ∈ List.range' 1 n := by
  rw [List.mem_range'_1]
  omega

/-- The numbers that count from one. -/
def numbering (n : Nat) : Fin n ≃ {i : Nat // i ∈ List.range' 1 n} where
  toFun i := ⟨i + 1, succ_mem_range i⟩
  invFun i := ⟨i - 1, by have := List.mem_range'_1.mp i.2; omega⟩
  left_inv i := Fin.ext (Nat.add_sub_cancel i 1)
  right_inv i := Subtype.ext (Nat.sub_add_cancel (List.mem_range'_1.mp i.2).1)

/-- The permutation as one of all numbers, of which those beyond the pulses stay as they are. -/
def renumber (π : Equiv.Perm (Fin n)) : Equiv.Perm Nat := π.extendDomain (numbering n)

theorem renumber_succ (π : Equiv.Perm (Fin n)) (i : Fin n) : renumber π (i + 1) = π i + 1 :=
  π.extendDomain_apply_image (numbering n) i

theorem renumber_of_notMem (π : Equiv.Perm (Fin n)) {i : Nat} (h : i ∉ List.range' 1 n) :
    renumber π i = i :=
  π.extendDomain_apply_not_subtype (numbering n) h

theorem renumber_mem_range {π : Equiv.Perm (Fin n)} {i : Nat} (h : i ∈ List.range' 1 n) :
    renumber π i ∈ List.range' 1 n := by
  obtain ⟨hpos, hle⟩ := List.mem_range'_1.mp h
  obtain ⟨j, rfl⟩ : ∃ j : Fin n, i = j + 1 := ⟨⟨i - 1, by omega⟩, by simp; omega⟩
  rw [renumber_succ]
  exact succ_mem_range (π j)

theorem renumber_symm_succ (π : Equiv.Perm (Fin n)) (i : Fin n) :
    (renumber π).symm (i + 1) = π.symm i + 1 := by
  rw [Equiv.symm_apply_eq, renumber_succ, Equiv.apply_symm_apply]

/-- Numbers that are renumbered among themselves are permuted. -/
theorem map_perm_self {f : Equiv.Perm Nat} {xs : List Nat} (hxs : xs.Nodup)
    (h : ∀ i ∈ xs, f i ∈ xs) : (xs.map f).Perm xs := by
  refine (List.subperm_of_subset (hxs.map f.injective) fun i hi => ?_).perm_of_length_le (by simp)
  obtain ⟨j, hj, rfl⟩ := List.mem_map.mp hi
  exact h j hj

/-! ## Lists -/

namespace IndexLists

/-- The lists with another number in place of every number. -/
def map (f : Nat → Nat) (l : IndexLists) : IndexLists := .ofFn fun c => (l.get c).map f

theorem get_map (f : Nat → Nat) (l : IndexLists) (c : Component) :
    (l.map f).get c = (l.get c).map f :=
  get_ofFn _ c

/-- Renumbered lists describe a model of as many pulses. -/
theorem Describes.map {l : IndexLists} (h : l.Describes n) (π : Equiv.Perm (Fin n)) :
    (l.map (renumber π)).Describes n := by
  obtain ⟨hpulses, hnodup, howners⟩ := describes_iff.mp h
  simp only [describes_iff, get_map, ← List.map_flatMap]
  have hrange := map_perm_self (f := renumber π) List.nodup_range' fun _ => renumber_mem_range
  refine ⟨(hpulses.map _).trans hrange, hnodup.map (renumber π).injective, fun i hi => ?_⟩
  obtain ⟨j, hj, rfl⟩ := List.mem_map.mp hi
  exact renumber_mem_range (howners j hj)

end IndexLists

namespace Model

/-- The components of a model follow the numbers of its pulses. -/
theorem components_perm {m m' : Model} {f : Nat → Nat}
    (h : ∀ c, (m'.indices c).Perm ((m.indices c).map f)) :
    m'.components.Perm (m.components.map fun term => (term.1, f term.2)) := by
  rw [components, components, List.map_flatMap]
  refine List.Perm.flatMap_left _ fun c _ => ?_
  rw [List.map_map]
  exact ((h c).map (c, ·)).trans (by rw [List.map_map]; rfl)

/-- Where all pulses are alike, a component is on all of them or on none. -/
theorem mem_indices_of_alike {m : Model} {x : Pulse} (h : ∀ y ∈ m.pulses, y = x) {c : Component}
    {i : Nat} : i ∈ m.indices c ↔ i ∈ List.range' 1 m.size ∧ x.has c = true := by
  constructor
  · intro hi
    refine ⟨mem_range_of_mem_indices hi, ?_⟩
    obtain ⟨j, y, -, hy, hc⟩ := mem_indices.mp hi
    rwa [h y (List.mem_of_getElem? hy)] at hc
  · rintro ⟨hi, hc⟩
    obtain ⟨s, hs⟩ := exists_shape_of_mem_range hi
    obtain ⟨j, y, rfl, hy, -⟩ := mem_indices.mp hs
    rw [← h y (List.mem_of_getElem? hy)] at hc
    exact mem_indices.mpr ⟨j, y, rfl, hy, hc⟩

/-- A model in which all pulses are alike is the same under other numbers. -/
theorem indices_perm_of_alike {m : Model} {x : Pulse} (h : ∀ y ∈ m.pulses, y = x)
    (π : Equiv.Perm (Fin m.size)) (c : Component) :
    (m.indices c).Perm ((m.indices c).map (renumber π)) := by
  refine (map_perm_self (m.nodup_indices c) fun i hi => ?_).symm
  obtain ⟨hi, hc⟩ := (mem_indices_of_alike h).mp hi
  exact (mem_indices_of_alike h).mpr ⟨renumber_mem_range hi, hc⟩

/-- The renumbered lists of a model are accepted, and what is made of them is lensed like the model
and has its pulses under their new numbers. -/
theorem exists_renumbered (m : Model) (π : Equiv.Perm (Fin m.size)) :
    ∃ m', ofLists m.lensed (m.lists.map (renumber π)) = .ok m' ∧ m'.lensed = m.lensed ∧
      ∀ c, (m'.indices c).Perm ((m.indices c).map (renumber π)) := by
  have hlists := ofLists_of_describes (m.describes_lists.map π) m.lensed
  refine ⟨_, hlists, rfl, fun c => ?_⟩
  rw [indices_of_ofLists hlists, IndexLists.get_map, get_lists]
  exact List.mergeSort_perm _ _

end Model

/-! ## Keys -/

namespace Key

/-- The key of the same quantity at a pulse of another number; what has no pulse stays as it is. -/
def renumber (f : Nat → Nat) : Key → Key
  | shape q i ch => shape q (f i) ch
  | k => k

/-- A new number can be taken back. -/
theorem renumber_symm (f : Equiv.Perm Nat) (k : Key) : (k.renumber f).renumber f.symm = k := by
  rcases k with q | ch | ⟨q, i, ch⟩
  · rfl
  · rfl
  · exact congrArg (shape q · ch) (f.symm_apply_apply i)

theorem renumber_injective (f : Equiv.Perm Nat) : Function.Injective (renumber f) :=
  Function.LeftInverse.injective (renumber_symm f)

/-- All keys at the pulses of a model. -/
def atPulses (n : Nat) : List Key :=
  ShapeQuantity.all.flatMap fun q => (List.range' 1 n).flatMap fun i => Channel.all.map (shape q i)

theorem shape_mem_atPulses {q : ShapeQuantity} {i : Nat} {ch : Channel}
    (h : i ∈ List.range' 1 n) : shape q i ch ∈ atPulses n := by
  have hq : q ∈ ShapeQuantity.all := by cases q <;> decide
  have hch : ch ∈ Channel.all := by cases ch <;> decide
  exact List.mem_flatMap.mpr ⟨q, hq, List.mem_flatMap.mpr ⟨i, h, List.mem_map_of_mem hch⟩⟩

end Key

/-- A parameter of a model whose pulses have other numbers is a parameter of the model under another
number. -/
theorem Model.exists_of_mem_keys {m m' : Model} {f : Nat → Nat} (hlensed : m'.lensed = m.lensed)
    (hindices : ∀ c, (m'.indices c).Perm ((m.indices c).map f)) {ch : Channel} {k : Key}
    (hk : k ∈ m'.keys ch) : ∃ k₀ ∈ m.keys ch, k = k₀.renumber f := by
  rcases mem_keys.mp hk with ⟨hlens, hshared⟩ | rfl | ⟨c, hc⟩
  · have hk : k ∈ m.keys ch := mem_keys.mpr (.inl ⟨hlensed ▸ hlens, hshared⟩)
    refine ⟨k, hk, ?_⟩
    cases k with
    | lens q => rfl
    | background ch' => rfl
    | shape q i ch' => cases hshared
  · exact ⟨.background ch, m.background_mem_keys ch, rfl⟩
  · obtain ⟨q, hq, i, hi, rfl⟩ := mem_shapeKeys.mp hc
    obtain ⟨j, hj, rfl⟩ := List.mem_map.mp ((hindices c).mem_iff.mp hi)
    exact ⟨.shape q j ch, shape_mem_keys hq hj, rfl⟩

/-! ## Names -/

variable (π : Equiv.Perm (Fin n))

/-- The name of a parameter of a pulse with the new number of the pulse; any other name as it is. -/
def renumberName (name : String) : String :=
  match (Key.atPulses n).find? (·.text == name) with
  | some k => (k.renumber (renumber π)).text
  | none => name

/-- The name of a key is renumbered like the key. -/
theorem renumberName_text (k : Key) : renumberName π k.text = (k.renumber (renumber π)).text := by
  unfold renumberName
  cases h : (Key.atPulses n).find? (·.text == k.text) with
  | some k' =>
    have htext : k'.text = k.text := by simpa using List.find?_some h
    rw [Key.text_injective htext]
  | none =>
    rcases k with q | ch | ⟨q, i, ch⟩
    · rfl
    · rfl
    · have hi : i ∉ List.range' 1 n := fun hi =>
        List.find?_eq_none.mp h _ (Key.shape_mem_atPulses hi) (beq_self_eq_true _)
      rw [Key.renumber, renumber_of_notMem π hi]

theorem renumberName_of_ne {name : String} (h : ∀ k : Key, k.text ≠ name) :
    renumberName π name = name := by
  have hnone : (Key.atPulses n).find? (·.text == name) = none := by
    rw [List.find?_eq_none]
    intro k _
    simpa using h k
  rw [renumberName, hnone]

/-- Different names stay different. -/
theorem renumberName_injective : Function.Injective (renumberName π) := by
  intro s t h
  by_cases hs : ∃ k : Key, k.text = s <;> by_cases ht : ∃ k : Key, k.text = t
  · obtain ⟨k, rfl⟩ := hs
    obtain ⟨l, rfl⟩ := ht
    rw [renumberName_text, renumberName_text] at h
    rw [Key.renumber_injective _ (Key.text_injective h)]
  · obtain ⟨k, rfl⟩ := hs
    rw [renumberName_text, renumberName_of_ne π (not_exists.mp ht)] at h
    exact absurd ⟨_, h⟩ ht
  · obtain ⟨k, rfl⟩ := ht
    rw [renumberName_text, renumberName_of_ne π (not_exists.mp hs)] at h
    exact absurd ⟨_, h.symm⟩ hs
  · rwa [renumberName_of_ne π (not_exists.mp hs), renumberName_of_ne π (not_exists.mp ht)] at h

/-- The assignment in which every pulse has its new number. -/
def Assignment.renumber {α : Type} (p : Assignment α) : Assignment α := p.rename (renumberName π)

/-- Under its new number a pulse has the values that it had. -/
theorem Assignment.getElem?_renumber {α : Type} (p : Assignment α) (k : Key) :
    (p.renumber π)[(k.renumber (PulseFit.renumber π)).text]? = p[k.text]? := by
  rw [← renumberName_text]
  exact getElem?_rename (renumberName_injective π) p k.text

/-- A model whose pulses have other numbers finds its parameters under them. -/
theorem Assignment.getElem?_renumber_of_mem_keys {α : Type} {m m' : Model}
    (hlensed : m'.lensed = m.lensed)
    (hindices : ∀ c, (m'.indices c).Perm ((m.indices c).map (PulseFit.renumber π))) {ch : Channel}
    {p : Assignment α} (hp : ∀ k ∈ m.keys ch, k.text ∈ p) (other : α) {k : Key}
    (hk : k ∈ m'.keys ch) :
    (p.renumber π)[k.text]? =
      some (p.getD (k.renumber (PulseFit.renumber π).symm).text other) := by
  obtain ⟨k₀, hk₀, rfl⟩ := Model.exists_of_mem_keys hlensed hindices hk
  rw [getElem?_renumber, Key.renumber_symm]
  exact Std.ExtTreeMap.getElem?_eq_some_getD (hp k₀ hk₀)

end PulseFit
