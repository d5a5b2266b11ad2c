import Mathlib.Data.List.Sort
import PulseFit.Model

/-!
# Proofs.Model.Indices — the pulses that have a component

`indices c` lists the numbers of the pulses with component `c`: each once, ascending
(`pairwise_indices`), and it has a number exactly if the pulse of that number has the component
(`mem_indices`).
-/

namespace PulseFit

namespace Pulse

@[simp] theorem has_pulse {p : Pulse} {s : PulseShape} : p.has (.pulse s) = true ↔ p.shape = s := by
  simp [has]

@[simp] theorem has_residual {p : Pulse} {r : ResidualShape} :
    p.has (.residual r) = true ↔ p.residual = some r := by
  simp [has]

end Pulse

namespace Model

variable {m : Model}

theorem mem_numbered {p : Pulse} {i : Nat} :
    (p, i) ∈ m.numbered ↔ ∃ j, i = j + 1 ∧ m.pulses[j]? = some p := by
  rw [numbered, List.mem_iff_getElem?]
  constructor
  · rintro ⟨j, hj⟩
    rw [List.getElem?_zipIdx] at hj
    obtain ⟨q, hq, he⟩ := Option.map_eq_some_iff.mp hj
    obtain ⟨rfl, rfl⟩ := Prod.mk.inj he
    exact ⟨j, Nat.add_comm 1 j, hq⟩
  · rintro ⟨j, rfl, hj⟩
    exact ⟨j, by rw [List.getElem?_zipIdx, hj, Option.map_some, Nat.add_comm]⟩

theorem mem_indices {c : Component} {i : Nat} :
    i ∈ m.indices c ↔ ∃ j p, i = j + 1 ∧ m.pulses[j]? = some p ∧ p.has c = true := by
  simp only [indices, List.mem_map, List.mem_filter, Prod.exists]
  constructor
  · rintro ⟨p, i, ⟨hp, hc⟩, rfl⟩
    obtain ⟨j, rfl, hj⟩ := mem_numbered.mp hp
    exact ⟨j, p, rfl, hj, hc⟩
  · rintro ⟨j, p, rfl, hj, hc⟩
    exact ⟨p, j + 1, ⟨mem_numbered.mpr ⟨j, rfl, hj⟩, hc⟩, rfl⟩

theorem mem_indices_pulse {s : PulseShape} {i : Nat} :
    i ∈ m.indices (.pulse s) ↔ ∃ j p, i = j + 1 ∧ m.pulses[j]? = some p ∧ p.shape = s := by
  simp [mem_indices]

theorem mem_indices_residual {r : ResidualShape} {i : Nat} :
    i ∈ m.indices (.residual r) ↔
      ∃ j p, i = j + 1 ∧ m.pulses[j]? = some p ∧ p.residual = some r := by
  simp [mem_indices]

/-- Pulse numbers count from one. -/
theorem pos_of_mem_indices {c : Component} {i : Nat} (h : i ∈ m.indices c) : 0 < i := by
  obtain ⟨j, -, rfl, -⟩ := mem_indices.mp h
  exact Nat.succ_pos j

theorem le_size_of_mem_indices {c : Component} {i : Nat} (h : i ∈ m.indices c) : i ≤ m.size := by
  obtain ⟨j, p, rfl, hj, -⟩ := mem_indices.mp h
  obtain ⟨hlt, -⟩ := List.getElem?_eq_some_iff.mp hj
  exact hlt

theorem mem_range_of_mem_indices {c : Component} {i : Nat} (h : i ∈ m.indices c) :
    i ∈ List.range' 1 m.size := by
  have hpos := pos_of_mem_indices h
  have hle := le_size_of_mem_indices h
  rw [List.mem_range'_1]
  omega

/-- Every number up to the number of pulses is listed for a shape. -/
theorem exists_shape_of_mem_range {i : Nat} (h : i ∈ List.range' 1 m.size) :
    ∃ s, i ∈ m.indices (.pulse s) := by
  obtain ⟨hpos, hle⟩ := List.mem_range'_1.mp h
  obtain ⟨j, rfl⟩ : ∃ j, i = j + 1 := ⟨i - 1, by omega⟩
  have hj : j < m.pulses.length := by rw [size] at hle; omega
  exact ⟨m.pulses[j].shape,
    mem_indices_pulse.mpr ⟨j, m.pulses[j], rfl, List.getElem?_eq_getElem hj, rfl⟩⟩

theorem pairwise_numbered : m.numbered.Pairwise fun a b => a.2 < b.2 := by
  have hmap : m.numbered.map (·.2) = List.range' 1 m.pulses.length := by
    rw [numbered, List.zipIdx_map_snd]
  have hlt : (m.numbered.map (·.2)).Pairwise (· < ·) := by
    rw [hmap]
    exact List.pairwise_lt_range'
  exact List.pairwise_map.mp hlt

theorem pairwise_indices (m : Model) (c : Component) : (m.indices c).Pairwise (· < ·) :=
  List.pairwise_map.mpr (pairwise_numbered.filter _)

theorem nodup_indices (m : Model) (c : Component) : (m.indices c).Nodup :=
  (m.pairwise_indices c).imp Nat.ne_of_lt

/-- Two components that a number is listed for are on one pulse. -/
theorem exists_has_of_mem_indices {c c' : Component} {i : Nat} (h : i ∈ m.indices c)
    (h' : i ∈ m.indices c') : ∃ p : Pulse, p.has c = true ∧ p.has c' = true := by
  obtain ⟨j, p, rfl, hp, hc⟩ := mem_indices.mp h
  obtain ⟨j', q, hj, hq, hc'⟩ := mem_indices.mp h'
  obtain rfl : j = j' := Nat.succ.inj hj
  obtain rfl : p = q := Option.some.inj (hp.symm.trans hq)
  exact ⟨p, hc, hc'⟩

/-- A pulse has one shape. -/
theorem shape_unique {s t : PulseShape} {i : Nat} (hs : i ∈ m.indices (.pulse s))
    (ht : i ∈ m.indices (.pulse t)) : s = t := by
  obtain ⟨p, hs, ht⟩ := exists_has_of_mem_indices hs ht
  exact (Pulse.has_pulse.mp hs).symm.trans (Pulse.has_pulse.mp ht)

/-- A pulse has one residual at most. -/
theorem residual_unique {r t : ResidualShape} {i : Nat} (hr : i ∈ m.indices (.residual r))
    (ht : i ∈ m.indices (.residual t)) : r = t := by
  obtain ⟨p, hr, ht⟩ := exists_has_of_mem_indices hr ht
  exact Option.some.inj ((Pulse.has_residual.mp hr).symm.trans (Pulse.has_residual.mp ht))

/-! ## Looking up a number -/

theorem pulse?_eq_some {i : Nat} {p : Pulse} :
    m.pulse? i = some p ↔ ∃ j, i = j + 1 ∧ m.pulses[j]? = some p := by
  cases i with
  | zero => simp [pulse?]
  | succ i => simp [pulse?]

theorem shapeAt?_eq_some {i : Nat} {s : PulseShape} :
    m.shapeAt? i = some s ↔ i ∈ m.indices (.pulse s) := by
  rw [shapeAt?, Option.map_eq_some_iff, mem_indices_pulse]
  constructor
  · rintro ⟨p, hp, hs⟩
    obtain ⟨j, hi, hj⟩ := pulse?_eq_some.mp hp
    exact ⟨j, p, hi, hj, hs⟩
  · rintro ⟨j, p, hi, hj, hs⟩
    exact ⟨p, pulse?_eq_some.mpr ⟨j, hi, hj⟩, hs⟩

theorem residualAt?_eq_some {i : Nat} {r : ResidualShape} :
    m.residualAt? i = some r ↔ i ∈ m.indices (.residual r) := by
  rw [residualAt?, Option.bind_eq_some_iff, mem_indices_residual]
  constructor
  · rintro ⟨p, hp, hr⟩
    obtain ⟨j, hi, hj⟩ := pulse?_eq_some.mp hp
    exact ⟨j, p, hi, hj, hr⟩
  · rintro ⟨j, p, hi, hj, hr⟩
    exact ⟨p, pulse?_eq_some.mpr ⟨j, hi, hj⟩, hr⟩

theorem mem_residualChain {i : Nat} :
    i ∈ m.residualChain ↔ ∃ r, i ∈ m.indices (.residual r) := by
  simp only [residualChain, List.mem_map, List.mem_filter, Prod.exists, mem_indices_residual]
  constructor
  · rintro ⟨p, i, ⟨hp, hr⟩, rfl⟩
    obtain ⟨j, rfl, hj⟩ := mem_numbered.mp hp
    obtain ⟨r, hr⟩ := Option.isSome_iff_exists.mp hr
    exact ⟨r, j, p, rfl, hj, hr⟩
  · rintro ⟨r, j, p, rfl, hj, hr⟩
    exact ⟨p, j + 1, ⟨mem_numbered.mpr ⟨j, rfl, hj⟩, Option.isSome_of_eq_some hr⟩, rfl⟩

theorem pairwise_residualChain (m : Model) : m.residualChain.Pairwise (· < ·) :=
  List.pairwise_map.mpr (pairwise_numbered.filter _)

theorem nodup_residualChain (m : Model) : m.residualChain.Nodup :=
  m.pairwise_residualChain.imp Nat.ne_of_lt

end Model

end PulseFit
