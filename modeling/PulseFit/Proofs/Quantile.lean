import Mathlib.Data.List.GetD
import PulseFit.Quantile
import PulseFit.Proofs.Scalar.Reals

/-!
# Proofs.Quantile — quantiles are monotone

In any arithmetic the median and the quantiles of a sample are read at places that it has, and do
not depend on its order (`sorted_perm`).

Without rounding more can be said.  Continued at both ends by its least and its greatest value, a
sorted sample is a monotone sequence over all integers, and its quantile at `q` is that sequence
interpolated at the place `n q - 1/2` (`quantile?_eq`).  Interpolating a monotone sequence gives a
monotone function (`monotone_between`), so quantiles never descend, lie between the two ends and
reach them, and no place outside the sample is read (`quantile?_mono`).
-/

namespace PulseFit.Quantile

open Exact (real)
open Scalar (totalLe LinearTotal)

/-! ## Samples in any arithmetic -/

section

variable {α : Type} [Scalar α] {xs ys : List α} {s : Array α}

/-- A sample is sorted to one array, in whatever order it is given. -/
theorem sorted_perm [LinearTotal α] (h : xs.Perm ys) : sorted xs = sorted ys := by
  have hascends (zs : List α) : (zs.mergeSort totalLe).Pairwise fun x y => totalLe x y = true := by
    refine List.pairwise_mergeSort (fun x y z hxy hyz => ?_) (fun x y => ?_) zs
    · exact LinearTotal.totalLe_trans hxy hyz
    · exact Bool.or_eq_true _ _ ▸ LinearTotal.totalLe_total x y
  have hperm : (xs.mergeSort totalLe).Perm (ys.mergeSort totalLe) :=
    (List.mergeSort_perm xs totalLe).trans (h.trans (List.mergeSort_perm ys totalLe).symm)
  have hsame := hperm.eq_of_pairwise (fun _ _ _ _ => LinearTotal.totalLe_antisymm) (hascends xs)
    (hascends ys)
  exact congrArg List.toArray hsame

theorem size_sorted (xs : List α) : (sorted xs).size = xs.length := by
  rw [sorted, List.size_toArray, List.length_mergeSort]

/-- The middle of a sample is in it. -/
theorem exists_median? (hs : 0 < s.size) : ∃ x, median? s = some x := by
  have hempty : s.isEmpty = false := Array.isEmpty_eq_false_iff.mpr (Array.size_pos_iff.mp hs)
  have hmiddle : (s.size - 1) / 2 < s.size := by omega
  unfold median?
  simp only [hempty, Bool.false_eq_true, if_false, Array.getElem?_eq_getElem hmiddle]
  split
  · -- an even number of values, so there are two at least
    have hnext : (s.size - 1) / 2 + 1 < s.size := by omega
    rw [Array.getElem?_eq_getElem hnext]
    exact ⟨_, rfl⟩
  · exact ⟨_, rfl⟩

/-- The quantile for a fraction is read at places of the sample. -/
theorem exists_quantile? (hs : 0 < s.size) {q : α} (hq : 0.0 ≤ q ∧ q ≤ 1.0) :
    ∃ x, quantile? s q = some x := by
  have hempty : s.isEmpty = false := Array.isEmpty_eq_false_iff.mpr (Array.size_pos_iff.mp hs)
  unfold quantile?
  simp only [hempty, Bool.false_eq_true, if_false, if_pos hq]
  split
  · exact ⟨_, Array.getElem?_eq_getElem hs⟩
  · split
    · have hlast : s.size - 1 < s.size := by omega
      exact ⟨_, Array.getElem?_eq_getElem hlast⟩
    · have hnext : Scalar.toNat (Scalar.floor (Scalar.ofNat s.size * q - 0.5)) + 1 < s.size := by
        omega
      rw [Array.getElem?_eq_getElem (Nat.lt_of_succ_lt hnext), Array.getElem?_eq_getElem hnext]
      exact ⟨_, rfl⟩

end

/-! ## Interpolation -/

/-- A sequence interpolated linearly between neighbouring integers. -/
noncomputable def between (a : ℤ → ℝ) (h : ℝ) : ℝ := a ⌊h⌋ + (h - ⌊h⌋) * (a (⌊h⌋ + 1) - a ⌊h⌋)

section Between

variable {a : ℤ → ℝ} (ha : Monotone a) (h : ℝ)

include ha

theorem le_between : a ⌊h⌋ ≤ between a h := by
  have hstep : 0 ≤ a (⌊h⌋ + 1) - a ⌊h⌋ := sub_nonneg.mpr (ha (by omega))
  have hpart : 0 ≤ h - ⌊h⌋ := sub_nonneg.mpr (Int.floor_le h)
  exact le_add_of_nonneg_right (mul_nonneg hpart hstep)

theorem between_le : between a h ≤ a (⌊h⌋ + 1) := by
  have hstep : 0 ≤ a (⌊h⌋ + 1) - a ⌊h⌋ := sub_nonneg.mpr (ha (by omega))
  have hpart : h - ⌊h⌋ ≤ 1 := by linarith [Int.lt_floor_add_one h]
  have hscaled := mul_le_mul_of_nonneg_right hpart hstep
  unfold between
  linarith

omit h in
theorem monotone_between : Monotone (between a) := by
  intro h h' hle
  rcases (Int.floor_le_floor hle).eq_or_lt with hsame | hlt
  · -- inside one piece the slope is not negative
    have hstep : 0 ≤ a (⌊h'⌋ + 1) - a ⌊h'⌋ := sub_nonneg.mpr (ha (by omega))
    have hscaled := mul_le_mul_of_nonneg_right (sub_le_sub_right hle (⌊h'⌋ : ℝ)) hstep
    unfold between
    rw [hsame]
    linarith
  · calc between a h ≤ a (⌊h⌋ + 1) := between_le ha h
      _ ≤ a ⌊h'⌋ := ha hlt
      _ ≤ between a h' := le_between ha h'

end Between

/-- At an integer nothing is interpolated. -/
theorem between_intCast (a : ℤ → ℝ) (k : ℤ) : between a k = a k := by
  simp [between]

theorem between_half (a : ℤ → ℝ) (k : ℤ) : between a (k + 1 / 2) = 1 / 2 * (a k + a (k + 1)) := by
  have hfloor : ⌊(k + 1 / 2 : ℝ)⌋ = k := by
    rw [Int.floor_intCast_add, Int.floor_eq_zero_iff.mpr (by norm_num), add_zero]
  rw [between, hfloor]
  ring

/-- Between neighbours of one value that value is kept. -/
theorem between_of_eq {a : ℤ → ℝ} {h x : ℝ} (hbelow : a ⌊h⌋ = x) (habove : a (⌊h⌋ + 1) = x) :
    between a h = x := by
  rw [between, hbelow, habove, sub_self, mul_zero, add_zero]

/-! ## A sample continued at its ends -/

variable {s : List ℝ}

/-- The value at a place of a sample, and beyond its ends the value there. -/
def continued (s : List ℝ) (k : ℤ) : ℝ := s.getD (min k.toNat (s.length - 1)) 0

theorem continued_of_nonpos {k : ℤ} (hk : k ≤ 0) : continued s k = continued s 0 := by
  have hzero : k.toNat = (0 : ℤ).toNat := by omega
  rw [continued, hzero, continued]

theorem continued_of_le {k : ℤ} (hk : (s.length - 1 : ℕ) ≤ k) :
    continued s k = continued s (s.length - 1 : ℕ) := by
  have hlast : min k.toNat (s.length - 1) = min (s.length - 1 : ℕ) (s.length - 1) := by omega
  rw [continued, hlast, continued, Int.toNat_natCast]

theorem continued_natCast {i : ℕ} (hi : i < s.length) : continued s i = s[i] := by
  have hplace : min (i : ℤ).toNat (s.length - 1) = i := by omega
  rw [continued, hplace, List.getD_eq_getElem]

theorem getElem?_of_lt {i : ℕ} (hi : i < s.length) :
    (s.map real).toArray[i]? = some (real (continued s i)) := by
  rw [continued_natCast hi]
  simp [hi]

theorem monotone_continued (hs : s.Pairwise (· ≤ ·)) : Monotone (continued s) := by
  intro k l hkl
  unfold continued
  have hplaces : min k.toNat (s.length - 1) ≤ min l.toNat (s.length - 1) := by omega
  rcases s.length.eq_zero_or_pos with hzero | hpos
  · simp [List.length_eq_zero_iff.mp hzero]
  · have hlast : min l.toNat (s.length - 1) < s.length := by omega
    rw [List.getD_eq_getElem _ _ hlast, List.getD_eq_getElem _ _ (hplaces.trans_lt hlast)]
    exact hs.rel_get_of_le hplaces

/-! ## Order statistics -/

theorem minimum?_eq (hs : s ≠ []) :
    minimum? (s.map real).toArray = some (real (continued s 0)) :=
  getElem?_of_lt (List.length_pos_iff.mpr hs)

theorem maximum?_eq (hs : s ≠ []) :
    maximum? (s.map real).toArray = some (real (continued s (s.length - 1 : ℕ))) := by
  have hlt : s.length - 1 < s.length := Nat.sub_one_lt_of_lt (List.length_pos_iff.mpr hs)
  have hsize : (s.map real).toArray.size = s.length := by simp
  rw [maximum?, hsize]
  exact getElem?_of_lt hlt

/-- The quantile is the continued sample interpolated at a place that rises with the fraction. -/
theorem quantile?_eq (hs : s ≠ []) {q : ℝ} (hq : 0 ≤ q) (hq' : q ≤ 1) :
    quantile? (s.map real).toArray (real q) =
      some (real (between (continued s) (s.length * q - 1 / 2))) := by
  have hsize : (s.map real).toArray.size = s.length := by simp
  have hempty : (s.map real).toArray.isEmpty = false := by simpa using hs
  have hunit : (0.0 : Exact) ≤ real q ∧ real q ≤ 1.0 := by
    rw [Exact.zero_eq, Exact.one_eq]
    exact ⟨hq, hq'⟩
  have hplace : Scalar.ofNat s.length * real q - 0.5 = real (s.length * q - 1 / 2) := by
    rw [Scalar.ExactReals.ofNat_eq, Exact.half_eq]
    exact Exact.real_sub_real _ _
  generalize (s.length * q - 1 / 2 : ℝ) = h at hplace ⊢
  have hfloor : Scalar.floor (real h) = real ⌊h⌋ := rfl
  have htoNat : Scalar.toNat (real ⌊h⌋) = ⌊h⌋.toNat := by
    show ⌊(⌊h⌋ : ℝ)⌋₊ = ⌊h⌋.toNat
    rw [← Int.floor_toNat, Int.floor_intCast]
  have hneg : real ⌊h⌋ < 0.0 ↔ ⌊h⌋ < 0 := by
    rw [Exact.zero_eq, Exact.real_lt_real, Int.cast_lt_zero]
  unfold quantile?
  simp only [hempty, Bool.false_eq_true, if_false, hsize, if_pos hunit, hplace, hfloor, htoNat,
    hneg]
  split
  · -- before the first value
    next hbefore =>
    rw [minimum?_eq hs, between_of_eq (continued_of_nonpos hbefore.le)
      (continued_of_nonpos (by omega))]
  · next hbefore =>
    split
    · -- from the last value on
      next hlast =>
      have hlast : (s.length - 1 : ℕ) ≤ ⌊h⌋ := by omega
      rw [maximum?_eq hs, between_of_eq (continued_of_le hlast) (continued_of_le (by omega))]
    · next hlast =>
      have hbelow : (s.map real).toArray[⌊h⌋.toNat]? = some (real (continued s ⌊h⌋)) := by
        rw [getElem?_of_lt (by omega), Int.toNat_of_nonneg (by omega)]
      have habove : (s.map real).toArray[⌊h⌋.toNat + 1]? = some (real (continued s (⌊h⌋ + 1))) := by
        rw [getElem?_of_lt (by omega), Nat.cast_add_one, Int.toNat_of_nonneg (by omega)]
      rw [hbelow, habove]
      refine congrArg some ?_
      rw [Exact.real_sub_real, Exact.real_sub_real]
      rfl

/-- At the fraction zero the place is before the sample. -/
theorem between_first : between (continued s) (s.length * 0 - 1 / 2) = continued s 0 := by
  have hfloor : ⌊(s.length * 0 - 1 / 2 : ℝ)⌋ = -1 := Int.floor_eq_iff.mpr (by norm_num)
  exact between_of_eq (continued_of_nonpos (by omega)) (continued_of_nonpos (by omega))

/-- At the fraction one it is behind the sample. -/
theorem between_last (hs : s ≠ []) :
    between (continued s) (s.length * 1 - 1 / 2) = continued s (s.length - 1 : ℕ) := by
  have hpos : 0 < s.length := List.length_pos_iff.mpr hs
  have hfloor : ⌊(s.length * 1 - 1 / 2 : ℝ)⌋ = (s.length - 1 : ℕ) := by
    rw [Int.floor_eq_iff, Int.cast_natCast, Nat.cast_sub hpos, Nat.cast_one]
    constructor <;> linarith
  exact between_of_eq (continued_of_le (by omega)) (continued_of_le (by omega))

/-- The median is the continued sample interpolated in the middle. -/
theorem median?_eq (hs : s ≠ []) :
    median? (s.map real).toArray =
      some (real (between (continued s) (s.length * (1 / 2) - 1 / 2))) := by
  have hpos : 0 < s.length := List.length_pos_iff.mpr hs
  have hsize : (s.map real).toArray.size = s.length := by simp
  have hempty : (s.map real).toArray.isEmpty = false := by simpa using hs
  unfold median?
  simp only [hempty, Bool.false_eq_true, if_false, hsize]
  obtain ⟨i, hi⟩ : ∃ i : ℕ, i = (s.length - 1) / 2 := ⟨_, rfl⟩
  rw [← hi]
  rcases Nat.even_or_odd' (s.length - 1) with ⟨j, hj | hj⟩
  · -- one value stands in the middle
    obtain rfl : i = j := by omega
    have hlength : (s.length : ℝ) = 2 * i + 1 := by
      have hnat : s.length = 2 * i + 1 := by omega
      exact_mod_cast congrArg (Nat.cast (R := ℝ)) hnat
    have hplace : (s.length * (1 / 2) - 1 / 2 : ℝ) = (i : ℤ) := by
      rw [hlength, Int.cast_natCast]
      ring
    rw [if_neg (by omega), getElem?_of_lt (by omega), hplace, between_intCast]
  · -- the middle is between two values
    obtain rfl : i = j := by omega
    have hlength : (s.length : ℝ) = 2 * i + 2 := by
      have hnat : s.length = 2 * i + 2 := by omega
      exact_mod_cast congrArg (Nat.cast (R := ℝ)) hnat
    have hplace : (s.length * (1 / 2) - 1 / 2 : ℝ) = (i : ℤ) + 1 / 2 := by
      rw [hlength, Int.cast_natCast]
      ring
    rw [if_pos (by omega), getElem?_of_lt (by omega), getElem?_of_lt (by omega), hplace,
      between_half, Exact.half_eq]
    rfl

/-! ## Samples of real numbers -/

/-- Sorting a sample of real numbers puts these in ascending order. -/
theorem exists_sorted (ts : List ℝ) :
    ∃ s : List ℝ, s.Perm ts ∧ s.Pairwise (· ≤ ·) ∧
      sorted (ts.map real) = (s.map real).toArray := by
  let le (x y : ℝ) : Bool := decide (x ≤ y)
  have htrans : ∀ x y z, le x y = true → le y z = true → le x z = true := by
    simpa [le] using fun x y z : ℝ => le_trans
  have htotal : ∀ x y, (le x y || le y x) = true := by
    simpa [le] using le_total
  refine ⟨ts.mergeSort le, List.mergeSort_perm ts le, ?_, ?_⟩
  · simpa [le] using List.pairwise_mergeSort htrans htotal ts
  · rw [sorted, List.map_mergeSort fun x _ y _ => Bool.eq_iff_iff.mpr ?_]
    rw [decide_eq_true_eq, Exact.totalLe_iff]
    exact ⟨fun h => .inl h, fun h => h.resolve_right nofun⟩

theorem isLeast_continued (hs : s ≠ []) (hsorted : s.Pairwise (· ≤ ·)) :
    IsLeast {t | t ∈ s} (continued s 0) := by
  refine ⟨?_, fun t ht => ?_⟩
  · rw [← Nat.cast_zero, continued_natCast (List.length_pos_iff.mpr hs)]
    exact List.getElem_mem _
  · obtain ⟨i, hi, rfl⟩ := List.mem_iff_getElem.mp ht
    rw [← continued_natCast hi]
    exact monotone_continued hsorted (Int.natCast_nonneg i)

theorem isGreatest_continued (hs : s ≠ []) (hsorted : s.Pairwise (· ≤ ·)) :
    IsGreatest {t | t ∈ s} (continued s (s.length - 1 : ℕ)) := by
  have hlast : s.length - 1 < s.length := Nat.sub_one_lt_of_lt (List.length_pos_iff.mpr hs)
  refine ⟨?_, fun t ht => ?_⟩
  · rw [continued_natCast hlast]
    exact List.getElem_mem _
  · obtain ⟨i, hi, rfl⟩ := List.mem_iff_getElem.mp ht
    rw [← continued_natCast hi]
    exact monotone_continued hsorted (by omega)

/-- The quantiles of a sample do not descend and lie between its least and its greatest value.  At
zero, a half and one they are the least value, the median and the greatest.  All are found at places
that the sample has. -/
theorem quantile?_mono {ts : List ℝ} (hts : ts ≠ []) :
    ∃ lo mid hi : ℝ, IsLeast {t | t ∈ ts} lo ∧ IsGreatest {t | t ∈ ts} hi ∧
      minimum? (sorted (ts.map real)) = some (real lo) ∧
      median? (sorted (ts.map real)) = some (real mid) ∧
      maximum? (sorted (ts.map real)) = some (real hi) ∧
      quantile? (sorted (ts.map real)) (real 0) = some (real lo) ∧
      quantile? (sorted (ts.map real)) (real (1 / 2)) = some (real mid) ∧
      quantile? (sorted (ts.map real)) (real 1) = some (real hi) ∧
      ∀ q₁ q₂ : ℝ, 0 ≤ q₁ → q₁ ≤ q₂ → q₂ ≤ 1 →
        ∃ x₁ x₂ : ℝ, quantile? (sorted (ts.map real)) (real q₁) = some (real x₁) ∧
          quantile? (sorted (ts.map real)) (real q₂) = some (real x₂) ∧
          lo ≤ x₁ ∧ x₁ ≤ x₂ ∧ x₂ ≤ hi := by
  obtain ⟨s, hperm, hsorted, heq⟩ := exists_sorted ts
  have hs : s ≠ [] := fun h => hts (List.nil_perm.mp (h ▸ hperm))
  have hmem : {t | t ∈ ts} = {t | t ∈ s} := Set.ext fun t => hperm.mem_iff.symm
  have hleast := isLeast_continued hs hsorted
  have hgreatest := isGreatest_continued hs hsorted
  have hmono := monotone_between (monotone_continued hsorted)
  have hlength : (0 : ℝ) ≤ s.length := Nat.cast_nonneg _
  rw [heq, hmem]
  refine ⟨_, _, _, hleast, hgreatest, minimum?_eq hs, median?_eq hs, maximum?_eq hs, ?_, ?_, ?_,
    fun q₁ q₂ h₁ h₁₂ h₂ => ?_⟩
  · rw [quantile?_eq hs le_rfl zero_le_one, between_first]
  · rw [quantile?_eq hs (by norm_num) (by norm_num)]
  · rw [quantile?_eq hs zero_le_one le_rfl, between_last hs]
  · refine ⟨_, _, quantile?_eq hs h₁ (h₁₂.trans h₂), quantile?_eq hs (h₁.trans h₁₂) h₂, ?_, ?_, ?_⟩
    · rw [← between_first]
      exact hmono (by linarith [mul_nonneg hlength h₁])
    · exact hmono (sub_le_sub_right (mul_le_mul_of_nonneg_left h₁₂ hlength) _)
    · rw [← between_last hs]
      exact hmono (sub_le_sub_right (mul_le_mul_of_nonneg_left h₂ hlength) _)

/-- Four values that are not in order. -/
theorem quantile?_mono_four :
    ([3, -1, 2, 10] : List ℝ) ≠ [] ∧
      quantile? (sorted (([3, -1, 2, 10] : List ℝ).map real)) (real 0) = some (real (-1)) ∧
      quantile? (sorted (([3, -1, 2, 10] : List ℝ).map real)) (real 1) = some (real 10) ∧
      ∃ x₁ x₂ : ℝ,
        quantile? (sorted (([3, -1, 2, 10] : List ℝ).map real)) (real (1 / 3)) = some (real x₁) ∧
        quantile? (sorted (([3, -1, 2, 10] : List ℝ).map real)) (real (2 / 3)) = some (real x₂) ∧
        -1 ≤ x₁ ∧ x₁ ≤ x₂ ∧ x₂ ≤ 10 := by
  have hne : ([3, -1, 2, 10] : List ℝ) ≠ [] := List.cons_ne_nil _ _
  obtain ⟨lo, mid, hi, hlo, hhi, -, -, -, hfirst, -, hlast, hall⟩ := quantile?_mono hne
  have hleast : IsLeast {t | t ∈ ([3, -1, 2, 10] : List ℝ)} (-1) := by
    refine ⟨by simp, fun t ht => ?_⟩
    simp only [List.mem_cons, List.not_mem_nil, or_false, Set.mem_ofPred_eq] at ht
    rcases ht with rfl | rfl | rfl | rfl <;> norm_num
  have hgreatest : IsGreatest {t | t ∈ ([3, -1, 2, 10] : List ℝ)} 10 := by
    refine ⟨by simp, fun t ht => ?_⟩
    simp only [List.mem_cons, List.not_mem_nil, or_false, Set.mem_ofPred_eq] at ht
    rcases ht with rfl | rfl | rfl | rfl <;> norm_num
  obtain rfl := hlo.unique hleast
  obtain rfl := hhi.unique hgreatest
  exact ⟨hne, hfirst, hlast, hall (1 / 3) (2 / 3) (by norm_num) (by norm_num) (by norm_num)⟩

end PulseFit.Quantile
