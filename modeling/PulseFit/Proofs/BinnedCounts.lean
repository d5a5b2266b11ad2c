import Mathlib.Data.List.Basic
import Mathlib.Tactic.SplitIfs
import PulseFit.BinnedCounts

/-!
# Proofs.BinnedCounts — the shape of a series

A series is made from bins and counts exactly if it is `WellFormed` (`ofBins?_eq_some_iff`), and
then it has counts, widths and rates for every channel (`WellFormed.exists_gives`).  Of a series of
any shape the lengths of its arrays decide what is missing (`counts?_eq_none_iff`,
`rates?_eq_none_iff`).
-/

namespace PulseFit

variable {α : Type}

namespace Table

variable {t : Table α} {j : Nat}

/-- A table with as many entries as rows and columns ask for. -/
def Full (t : Table α) : Prop := t.data.size = t.rows * t.columns

/-- The place of an entry is within a full table. -/
theorem Full.place_lt (h : t.Full) {i : Nat} (hi : i < t.rows) (hj : j < t.columns) :
    i * t.columns + j < t.data.size :=
  calc i * t.columns + j < i * t.columns + t.columns := by omega
    _ = (i + 1) * t.columns := (Nat.succ_mul i t.columns).symm
    _ ≤ t.rows * t.columns := Nat.mul_le_mul_right t.columns hi
    _ = t.data.size := h.symm

variable [Scalar α]

theorem column?_eq_none_iff : t.column? j = none ↔ t.columns ≤ j := by
  rw [column?]
  split
  · next hj => exact iff_of_false nofun (by omega)
  · next hj => exact iff_of_true rfl (by omega)

theorem size_of_column? {xs : Array α} (h : t.column? j = some xs) : xs.size = t.rows := by
  rw [column?] at h
  split at h
  · cases h
    exact Array.size_ofFn
  · cases h

/-- The entries of a column of a full table all stand in the table. -/
theorem getElem?_of_column? {xs : Array α} (hfull : t.Full) (h : t.column? j = some xs) {i : Nat}
    (hi : i < t.rows) : xs[i]? = t.data[i * t.columns + j]? := by
  rw [column?] at h
  split at h
  · next hj =>
    have hplace := hfull.place_lt hi hj
    cases h
    rw [Array.getElem?_ofFn, dif_pos hi, Array.getElem?_eq_getElem hplace,
      Array.getD_eq_getD_getElem?, Array.getElem?_eq_getElem hplace, Option.getD_some]
  · cases h

end Table

namespace BinnedCounts

variable {b : BinnedCounts α}

/-- The lengths of arrays that can be combined entry by entry. -/
def Combinable (n m : Nat) : Prop := n = m ∨ n = 1 ∨ m = 1

/-- The length of two combined arrays. -/
def combinedSize (n m : Nat) : Nat := if m = 1 then n else m

variable {f : α → α → α} {xs ys zs : Array α}

section

variable [Scalar α]

theorem combine?_of_size_eq (h : xs.size = ys.size) : combine? f xs ys = some (xs.zipWith f ys) :=
  if_pos h

theorem combine?_eq_none_iff : combine? f xs ys = none ↔ ¬ Combinable xs.size ys.size := by
  unfold combine? Combinable
  split_ifs <;> simp_all

theorem size_of_combine? (h : combine? f xs ys = some zs) :
    zs.size = combinedSize xs.size ys.size := by
  unfold combine? at h
  unfold combinedSize
  split_ifs at h with hsame hy hx
  · cases h
    simp [hsame]
  · cases h
    simp [hy]
  · cases h
    rw [if_neg hy, Array.size_map]

end

/-! ## Well-formed series -/

theorem forall_zip_iff {l r : Array α} {P : α → α → Prop} :
    (∀ x ∈ l.toList.zip r.toList, P x.1 x.2) ↔
      ∀ (i : Nat) (hl : i < l.size) (hr : i < r.size), P l[i] r[i] := by
  rw [List.forall_mem_iff_forall_getElem]
  constructor
  · intro h i hl hr
    have hi : i < (l.toList.zip r.toList).length := by
      simp only [List.length_zip, Array.length_toList]
      omega
    have hP := h i hi
    rwa [List.getElem_zip, Array.getElem_toList, Array.getElem_toList] at hP
  · intro h i hi
    have hP := h i
    rw [List.getElem_zip, Array.getElem_toList, Array.getElem_toList]
    simp only [List.length_zip, Array.length_toList, Nat.lt_min] at hi
    exact hP hi.1 hi.2

/-- A series whose edges and table match: bins of positive width, a row for each bin and a column
for each channel. -/
structure WellFormed [Scalar α] (b : BinnedCounts α) : Prop where
  right_size : b.right.size = b.left.size
  rows_eq : b.counts.rows = b.left.size
  columns_eq : b.counts.columns = 4
  left_lt_right : ∀ (i : Nat) (hl : i < b.left.size) (hr : i < b.right.size), b.left[i] < b.right[i]

variable [Scalar α]

theorem valid_iff : b.valid = true ↔ b.WellFormed := by
  have hwidths : ((b.left.toList.zip b.right.toList).all fun x => decide (x.1 < x.2)) = true ↔
      ∀ (i : Nat) (hl : i < b.left.size) (hr : i < b.right.size), b.left[i] < b.right[i] := by
    rw [List.all_eq_true, ← forall_zip_iff (P := (· < ·))]
    simp only [decide_eq_true_eq]
  rw [valid, Bool.and_eq_true, hwidths]
  simp only [Bool.and_eq_true, beq_iff_eq]
  constructor
  · rintro ⟨⟨⟨hsize, hrows⟩, hcolumns⟩, hlt⟩
    exact ⟨hsize.symm, hrows, hcolumns, hlt⟩
  · rintro ⟨hsize, hrows, hcolumns, hlt⟩
    exact ⟨⟨⟨hsize.symm, hrows⟩, hcolumns⟩, hlt⟩

/-- A series is made from bins and counts exactly if they are well formed. -/
theorem ofBins?_eq_some_iff {left right : Array α} {counts : Table α} :
    ofBins? left right counts = some b ↔ b = ⟨left, right, counts⟩ ∧ b.WellFormed := by
  unfold ofBins?
  dsimp only
  split
  · next hvalid =>
    rw [Option.some.injEq]
    constructor
    · rintro rfl
      exact ⟨rfl, valid_iff.mp hvalid⟩
    · rintro ⟨rfl, -⟩
      rfl
  · next hvalid =>
    refine iff_of_false nofun ?_
    rintro ⟨rfl, h⟩
    exact hvalid (valid_iff.mpr h)

/-! ## What a series gives for a channel -/

/-- A channel of a series has counts in every bin, each of which stands in the table, and a width
and a rate of every bin. -/
structure Gives (b : BinnedCounts α) (ch : Channel) (counts : Array α) : Prop where
  counts_eq : b.counts? ch = some counts
  size_counts : counts.size = b.size
  entries : b.counts.Full → ∀ i < b.size, counts[i]? = b.counts.data[i * 4 + ch.index]?
  widths_eq : b.widths? = some (b.right.zipWith (· - ·) b.left)
  size_widths : (b.right.zipWith (· - ·) b.left).size = b.size
  rates_eq : b.rates? ch = some (counts.zipWith (· / ·) (b.right.zipWith (· - ·) b.left))
  size_rates : (counts.zipWith (· / ·) (b.right.zipWith (· - ·) b.left)).size = b.size

theorem counts?_eq_none_iff {ch : Channel} : b.counts? ch = none ↔ b.counts.columns ≤ ch.index :=
  Table.column?_eq_none_iff

theorem rates?_eq {ch : Channel} {counts widths : Array α} (hcounts : b.counts? ch = some counts)
    (hwidths : b.widths? = some widths) : b.rates? ch = combine? (· / ·) counts widths := by
  rw [rates?, hcounts, hwidths]
  rfl

theorem size_totals : b.totals.size = b.counts.rows := Array.size_ofFn

theorem WellFormed.exists_gives (h : b.WellFormed) (ch : Channel) :
    ∃ counts, b.Gives ch counts := by
  have hindex : ch.index < b.counts.columns := by
    rw [h.columns_eq]
    exact ch.index_lt
  obtain ⟨counts, hcounts⟩ : ∃ counts, b.counts? ch = some counts :=
    Option.ne_none_iff_exists'.mp fun hnone => by
      have := counts?_eq_none_iff.mp hnone
      omega
  have hsize : counts.size = b.size := (Table.size_of_column? hcounts).trans h.rows_eq
  have hwidths : (b.right.zipWith (· - ·) b.left).size = b.size := by
    rw [Array.size_zipWith, h.right_size, Nat.min_self, size]
  have hwidths? : b.widths? = some (b.right.zipWith (· - ·) b.left) :=
    combine?_of_size_eq h.right_size
  refine ⟨counts, hcounts, hsize, fun hfull i hi => ?_, hwidths?, hwidths, ?_, ?_⟩
  · have hrow : i < b.counts.rows := by
      rw [h.rows_eq]
      exact hi
    rw [Table.getElem?_of_column? hfull hcounts hrow, h.columns_eq]
  · rw [rates?_eq hcounts hwidths?, combine?_of_size_eq (hsize.trans hwidths.symm)]
  · rw [Array.size_zipWith, hsize, hwidths, Nat.min_self]

/-- When the rates of a channel of a series of any shape are missing. -/
theorem rates?_eq_none_iff {ch : Channel} :
    b.rates? ch = none ↔ b.counts.columns ≤ ch.index ∨ ¬ Combinable b.right.size b.left.size ∨
      ¬ Combinable b.counts.rows (combinedSize b.right.size b.left.size) := by
  rw [← counts?_eq_none_iff, ← combine?_eq_none_iff (f := (· - ·)), ← widths?]
  cases hcounts : b.counts? ch with
  | none => simp [rates?, hcounts]
  | some counts =>
    cases hwidths : b.widths? with
    | none => simp [rates?, hcounts, hwidths]
    | some widths =>
      rw [rates?_eq hcounts hwidths, combine?_eq_none_iff, Table.size_of_column? hcounts,
        size_of_combine? hwidths]
      simp

end BinnedCounts

end PulseFit
