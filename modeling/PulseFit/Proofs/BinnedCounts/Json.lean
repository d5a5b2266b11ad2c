import Mathlib.Algebra.BigOperators.Group.List.Lemmas
import Mathlib.Algebra.BigOperators.Ring.List
import PulseFit.BinnedCounts.Json
import PulseFit.Proofs.BinnedCounts
import PulseFit.Proofs.Decimal
import PulseFit.Proofs.Json
import PulseFit.Proofs.Traversal

/-!
# Proofs.BinnedCounts.Json — series read from texts

A text is read as a series if it holds three arrays, each with as many entries as its own dimensions
ask for (`ofJson?_eq_some_iff`); how the arrays go together is not looked at.  So every series whose
table is full is read back from its text, well formed or not (`ofJson?_render`).
-/

namespace PulseFit

variable {α : Type} [Scalar α]

namespace Json

/-- A number that is read back from the value it is written as. -/
structure Legible (number : α → Value) (x : α) : Prop where
  isFinite : Scalar.isFinite x = true
  valid : (number x).Valid
  scalar?_eq : scalar? (number x) = some x

theorem Legible.scalar?_ofScalar {number : α → Value} {x : α} (h : Legible number x) :
    scalar? (ofScalar number x) = some x := by
  rw [ofScalar, if_pos h.isFinite, h.scalar?_eq]

theorem Legible.valid_ofScalar {number : α → Value} {x : α} (h : Legible number x) :
    (ofScalar number x).Valid := by
  rw [ofScalar, if_pos h.isFinite]
  exact h.valid

/-- A list is read back if each of its items is. -/
theorem list?_map {β : Type} {item? : Value → Option β} {write : β → Value} {xs : List β}
    (h : ∀ x ∈ xs, item? (write x) = some x) : list? item? (.array (xs.map write)) = some xs := by
  rw [list?, List.mapM_map]
  have hmap : xs.mapM (item? ∘ write) = pure (xs.map id) := mapM_eq_pure_map h
  rwa [List.map_id] at hmap

theorem valid_record {members : List (String × Value)} (h : ∀ m ∈ members, m.2.Valid) :
    (Value.record members).Valid := by
  refine .object (fun m hm => ?_) (fun m hm => ?_)
  · obtain ⟨m', -, rfl⟩ := List.mem_map.mp hm
    rfl
  · obtain ⟨m', hm', rfl⟩ := List.mem_map.mp hm
    exact h m' hm'

end Json

namespace Table

open Json (Legible)

variable {number : α → Json.Value} {rank : Nat} {dims : List Nat} {data : Array α}

/-- As many entries are read as the dimensions ask for. -/
theorem size_of_shaped? {v : Json.Value} (h : shaped? rank v = some (dims, data)) :
    data.size = dims.prod := by
  obtain ⟨⟨dims', data'⟩, -, h⟩ := Option.bind_eq_some_iff.mp h
  dsimp only at h
  split at h
  · next hsize =>
    cases h
    rw [List.prod_eq_foldl]
    exact hsize.2.symm
  · cases h

/-- A dimension is no greater than the product of those that are not zero. -/
theorem le_prod_filter {n : Nat} (h : n ∈ dims) : n ≤ (dims.filter (· ≠ 0)).prod := by
  have hpos : 0 < (dims.filter (· ≠ 0)).prod :=
    Nat.pos_of_ne_zero (List.prod_ne_zero (by simp))
  by_cases hn : n = 0
  · omega
  · exact Nat.le_of_dvd hpos (List.dvd_prod (List.mem_filter.mpr ⟨h, by simpa using hn⟩))

theorem valid_shapedJson (hdata : ∀ x ∈ data, Legible number x) :
    (shapedJson number dims data).Valid := by
  have hnatural (n : Nat) : (Json.Value.ofNat n).Valid := .number (Numeral.valid_ofNat n)
  have hdims : (Json.Value.array (dims.map .ofNat)).Valid := by
    refine .array fun v hv => ?_
    obtain ⟨n, -, rfl⟩ := List.mem_map.mp hv
    exact hnatural n
  have hentries : (Json.Value.array (data.toList.map (Json.ofScalar number))).Valid := by
    refine .array fun v hv => ?_
    obtain ⟨x, hx, rfl⟩ := List.mem_map.mp hv
    exact (hdata x (Array.mem_toList_iff.mp hx)).valid_ofScalar
  refine Json.valid_record fun m hm => ?_
  simp only [List.mem_cons, List.not_mem_nil, or_false] at hm
  rcases hm with rfl | rfl | rfl
  · exact hnatural 1
  · exact hdims
  · exact hentries

/-- An array is read back from its record if it is not too long and its numbers are read back. -/
theorem shaped?_shapedJson (hrank : dims.length = rank)
    (hbound : (dims.filter (· ≠ 0)).prod < sizeBound) (hsize : data.size = dims.prod)
    (hdata : ∀ x ∈ data, Legible number x) :
    shaped? rank (shapedJson number dims data) = some (dims, data) := by
  have hversion : version? (.ofNat 1) = some 1 := by decide
  have hdims : dimensions? rank (.array (dims.map .ofNat)) = some dims := by
    have hlist : Json.list? (Json.natural? 64) (.array (dims.map .ofNat)) = some dims := by
      refine Json.list?_map fun n hn => Numeral.natural?_ofNat ?_
      calc n ≤ (dims.filter (· ≠ 0)).prod := le_prod_filter hn
        _ < sizeBound := hbound
        _ < Nat.pow 2 64 := by decide
    rw [dimensions?, hlist]
    simp [hrank]
  have hentries : entries? (.array (data.toList.map (Json.ofScalar number))) = some data.toList :=
    Json.list?_map fun x hx => (hdata x (Array.mem_toList_iff.mp hx)).scalar?_ofScalar
  have hparts : parts? rank (shapedJson number dims data) = some (dims, data.toList) := by
    simp [shapedJson, Json.Value.record, parts?, wellFormed, lastMember?, hversion, hdims, hentries]
  rw [List.prod_eq_foldl] at hbound hsize
  rw [shaped?, hparts]
  refine if_pos ⟨hbound, ?_⟩
  rw [Array.length_toList, hsize]

/-- Edges are read back from their record. -/
theorem shaped?_edges (hbound : data.size < sizeBound) (hdata : ∀ x ∈ data, Legible number x) :
    shaped? 1 (shapedJson number [data.size] data) = some ([data.size], data) := by
  refine shaped?_shapedJson rfl ?_ (by simp) hdata
  by_cases h : data.size = 0
  · simp only [h]
    decide
  · simpa [h] using hbound

end Table

namespace BinnedCounts

open Json (Legible)

variable {b : BinnedCounts α}

/-- A value that holds three arrays as the fields of a series. -/
def Held (b : BinnedCounts α) (v : Json.Value) : Prop :=
  ∃ left right counts dims dims',
    Json.allFields? ["bin_left", "bin_right", "counts"] v = some [left, right, counts] ∧
    Table.shaped? 1 left = some (dims, b.left) ∧ Table.shaped? 1 right = some (dims', b.right) ∧
    Table.shaped? 2 counts = some ([b.counts.rows, b.counts.columns], b.counts.data)

theorem ofJson?_eq_some_iff {v : Json.Value} : ofJson? v = some b ↔ b.Held v := by
  constructor
  · intro h
    obtain ⟨vs, hvs, h⟩ := Option.bind_eq_some_iff.mp h
    split at h
    · next left right counts =>
      obtain ⟨⟨dims, ls⟩, hleft, h⟩ := Option.bind_eq_some_iff.mp h
      obtain ⟨⟨dims', rs⟩, hright, h⟩ := Option.bind_eq_some_iff.mp h
      obtain ⟨table, htable, h⟩ := Option.bind_eq_some_iff.mp h
      split at h
      · cases h
        exact ⟨left, right, counts, dims, dims', hvs, hleft, hright, htable⟩
      · cases h
    · cases h
  · rintro ⟨left, right, counts, dims, dims', hvs, hleft, hright, htable⟩
    simp [ofJson?, hvs, hleft, hright, htable]

/-- The table of a series that is read is full. -/
theorem Held.full {v : Json.Value} (h : b.Held v) : b.counts.Full := by
  obtain ⟨left, right, counts, dims, dims', -, -, -, htable⟩ := h
  rw [Table.Full, Table.size_of_shaped? htable]
  simp

/-- A series whose arrays can be written: the table is full, no array is too long and all numbers
are read back. -/
structure Writable (number : α → Json.Value) (b : BinnedCounts α) : Prop where
  full : b.counts.Full
  left_size : b.left.size < Table.sizeBound
  right_size : b.right.size < Table.sizeBound
  table_size : ([b.counts.rows, b.counts.columns].filter (· ≠ 0)).prod < Table.sizeBound
  left : ∀ x ∈ b.left, Legible number x
  right : ∀ x ∈ b.right, Legible number x
  counts : ∀ x ∈ b.counts.data, Legible number x

variable {number : α → Json.Value}

theorem Writable.held (h : b.Writable number) : b.Held (b.toJson number) := by
  have hsize : b.counts.data.size = [b.counts.rows, b.counts.columns].prod := by
    simpa [Table.Full] using h.full
  have htable := Table.shaped?_shapedJson rfl h.table_size hsize h.counts
  have hfields : Json.allFields? ["bin_left", "bin_right", "counts"] (b.toJson number) =
      some [Table.shapedJson number [b.left.size] b.left,
        Table.shapedJson number [b.right.size] b.right,
        Table.shapedJson number [b.counts.rows, b.counts.columns] b.counts.data] := by
    simp [toJson, Json.Value.record, Json.allFields?, Json.fields?, Json.memberValues?]
  exact ⟨_, _, _, _, _, hfields, Table.shaped?_edges h.left_size h.left,
    Table.shaped?_edges h.right_size h.right, htable⟩

theorem Writable.valid (h : b.Writable number) : (b.toJson number).Valid := by
  refine Json.valid_record fun m hm => ?_
  simp only [List.mem_cons, List.not_mem_nil, or_false] at hm
  rcases hm with rfl | rfl | rfl
  · exact Table.valid_shapedJson h.left
  · exact Table.valid_shapedJson h.right
  · exact Table.valid_shapedJson h.counts

/-- A series is read back from its text, well formed or not. -/
theorem ofJson?_render (h : b.Writable number) :
    (Json.read? (b.toJson number).render).bind ofJson? = some b := by
  rw [Json.read?_render h.valid, Option.bind_some]
  exact ofJson?_eq_some_iff.mpr h.held

end BinnedCounts

end PulseFit
