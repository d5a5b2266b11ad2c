import Mathlib.Algebra.BigOperators.Intervals
import PulseFit.Proofs.Scalar.Exact

/-!
# Proofs.Scalar.Reals — arithmetic that is exact on real numbers

`ExactReals` says that the real numbers are among the values of an arithmetic, that their sums,
products and quotients are not rounded, and that the circular convolution of real numbers is what
its name says.  Nothing is asked of the functions, nor of values that are no real numbers.
-/

namespace PulseFit

open Finset (range)

/-- The entry `k` of the circular convolution: the products of all entries whose places add up to
`k` around a circle as long as the first array. -/
noncomputable def circularEntry (xs ys : Array ℝ) (k : ℕ) : ℝ :=
  ∑ i ∈ range xs.size, ∑ j ∈ range ys.size,
    if (i + j) % xs.size = k then xs.getD i 0 * ys.getD j 0 else 0

/-- For a place in the first array there is one in the second with which it adds up. -/
theorem circularEntry_eq {xs ys : Array ℝ} (hsize : ys.size = xs.size) {k : ℕ}
    (hk : k < xs.size) :
    circularEntry xs ys k =
      ∑ i ∈ range xs.size, xs.getD i 0 * ys.getD ((k + xs.size - i) % xs.size) 0 := by
  unfold circularEntry
  refine Finset.sum_congr rfl fun i hi => ?_
  rw [Finset.mem_range] at hi
  have hpos : 0 < xs.size := by omega
  rw [Finset.sum_eq_single ((k + xs.size - i) % xs.size)]
  · have hplace : (i + (k + xs.size - i) % xs.size) % xs.size = k := by
      rw [Nat.add_mod_mod, show i + (k + xs.size - i) = k + xs.size by omega,
        Nat.add_mod_right, Nat.mod_eq_of_lt hk]
    rw [if_pos hplace]
  · intro j hj hne
    rw [Finset.mem_range, hsize] at hj
    refine if_neg fun hplace => hne ?_
    -- both sums stay below twice the length, so the remainder drops one length at most
    rcases Nat.lt_or_ge (i + j) xs.size with hlt | hge
    · rw [Nat.mod_eq_of_lt hlt] at hplace
      rw [show k + xs.size - i = j + xs.size by omega, Nat.add_mod_right, Nat.mod_eq_of_lt hj]
    · rw [Nat.mod_eq_sub_mod hge, Nat.mod_eq_of_lt (by omega)] at hplace
      rw [show k + xs.size - i = j by omega, Nat.mod_eq_of_lt hj]
  · intro hnotMem
    refine absurd (Finset.mem_range.mpr ?_) hnotMem
    rw [hsize]
    exact Nat.mod_lt _ hpos

namespace Scalar

/-- Exact sums, products, quotients and circular convolutions of real numbers. -/
class ExactReals (α : Type) [Scalar α] where
  real : ℝ → α
  zero_eq : (0.0 : α) = real 0
  real_add (x y : ℝ) : real x + real y = real (x + y)
  real_mul (x y : ℝ) : real x * real y = real (x * y)
  real_div (x : ℝ) {y : ℝ} : y ≠ 0 → real x / real y = real (x / y)
  ofNat_eq (n : ℕ) : ofNat n = real n
  circular_eq {xs ys : Array ℝ} {level : ℕ} : xs.size = 2 ^ level → ys.size = 2 ^ level →
    circular (xs.map real) (ys.map real) =
      Array.ofFn fun k : Fin xs.size => real (xs.size * circularEntry xs ys k)

namespace ExactReals

variable {α : Type} [Scalar α] [ExactReals α]

/-- A running sum of real numbers is their sum. -/
theorem foldl_add {ι : Type} (f : ι → ℝ) (xs : List ι) (x : ℝ) :
    xs.foldl (fun s i => s + real (f i)) (real x : α) = real (x + (xs.map f).sum) := by
  induction xs generalizing x with
  | nil => simp
  | cons i xs ih =>
    rw [List.foldl_cons, real_add, ih, List.map_cons, List.sum_cons, add_assoc]

end ExactReals

end Scalar

namespace Exact

theorem real_add_real (x y : ℝ) : real x + real y = real (x + y) := rfl

theorem real_mul_real (x y : ℝ) : real x * real y = real (x * y) := rfl

theorem real_div_real (x : ℝ) {y : ℝ} (hy : y ≠ 0) : real x / real y = real (x / y) := by
  have hinv : (real y).inv = real y⁻¹ := if_neg hy
  show (real x).mul (real y).inv = real (x / y)
  rw [hinv, div_eq_mul_inv]
  rfl

theorem foldl_add_real (f : ℕ → ℝ) (n : ℕ) :
    (List.range n).foldl (fun s i => s.add (real (f i))) (real 0) =
      real (∑ i ∈ range n, f i) := by
  induction n with
  | zero => simp
  | succ n ih =>
    rw [List.range_succ, List.foldl_append, ih, Finset.sum_range_succ]
    rfl

theorem getD_map_real (xs : Array ℝ) (i : ℕ) :
    (xs.map real).getD i (real 0) = real (xs.getD i 0) := by
  by_cases h : i < xs.size <;> simp [Array.getD, h]

theorem circular_map_real {xs ys : Array ℝ} (hsize : ys.size = xs.size) :
    Exact.circular (xs.map real) (ys.map real) =
      Array.ofFn fun k : Fin xs.size => real (xs.size * circularEntry xs ys k) := by
  refine Array.ext (by simp [circular]) fun k hk _ => ?_
  have hk : k < xs.size := by simpa [circular] using hk
  simp only [circular, Array.getElem_ofFn, Array.size_map, getD_map_real]
  rw [circularEntry_eq hsize hk]
  exact congrArg (real xs.size).mul (foldl_add_real _ xs.size)

noncomputable instance : Scalar.ExactReals Exact where
  real := real
  zero_eq := zero_eq
  real_add := real_add_real
  real_mul := real_mul_real
  real_div x _ hy := real_div_real x hy
  ofNat_eq _ := rfl
  circular_eq hx hy := circular_map_real (hy.trans hx.symm)

/-! ## Real and positive numbers -/

/-- What lies between real numbers is one. -/
theorem exists_real_of_le {x : Exact} {lo hi : ℝ} (hlo : real lo ≤ x) (hhi : x ≤ real hi) :
    ∃ t, x = real t ∧ lo ≤ t ∧ t ≤ hi := by
  cases x with
  | real t => exact ⟨t, rfl, hlo, hhi⟩
  | posInf => exact hhi.elim
  | negInf => exact hlo.elim
  | nan => exact hlo.elim

theorem pow_real {x : ℝ} (hx : 0 < x) (y : ℝ) : Scalar.pow (real x) (real y) = real (x ^ y) := by
  have hzero : ¬ (x = 0 ∧ y < 0) := fun h => hx.ne' h.1
  have hneg : ¬ (x < 0 ∧ ¬ ∃ n : ℤ, (n : ℝ) = y) := fun h => not_lt_of_gt hx h.1
  exact (if_neg hzero).trans (if_neg hneg)

/-- A positive real number. -/
def IsPositive (x : Exact) : Prop := ∃ t : ℝ, 0 < t ∧ x = real t

theorem isPositive_real {t : ℝ} (h : 0 < t) : IsPositive (real t) := ⟨t, h, rfl⟩

theorem IsPositive.add {x y : Exact} (hx : IsPositive x) (hy : IsPositive y) :
    IsPositive (x + y) := by
  obtain ⟨s, hs, rfl⟩ := hx
  obtain ⟨t, ht, rfl⟩ := hy
  exact isPositive_real (add_pos hs ht)

theorem IsPositive.mul {x y : Exact} (hx : IsPositive x) (hy : IsPositive y) :
    IsPositive (x * y) := by
  obtain ⟨s, hs, rfl⟩ := hx
  obtain ⟨t, ht, rfl⟩ := hy
  exact isPositive_real (mul_pos hs ht)

theorem IsPositive.not_neg {x : Exact} (hx : IsPositive x) : ¬ x < 0.0 := by
  obtain ⟨t, ht, rfl⟩ := hx
  rw [zero_eq, real_lt_real]
  exact not_lt_of_gt ht

/-- The real number that a value is, zero for others. -/
def toReal : Exact → ℝ
  | real t => t
  | _ => 0

/-- An array of positive numbers is one of real numbers. -/
theorem exists_eq_map_real {xs : Array Exact} (h : ∀ x ∈ xs, IsPositive x) :
    ∃ ts : Array ℝ, xs = ts.map real ∧ ∀ t ∈ ts, 0 < t := by
  refine ⟨xs.map toReal, ?_, fun t ht => ?_⟩
  · have hself : xs.map (real ∘ toReal) = xs.map id := by
      refine Array.map_congr_left fun x hx => ?_
      obtain ⟨s, -, rfl⟩ := h x hx
      rfl
    rw [Array.map_map, hself, Array.map_id]
  · obtain ⟨x, hx, rfl⟩ := Array.mem_map.mp ht
    obtain ⟨s, hs, rfl⟩ := h x hx
    exact hs

end Exact

end PulseFit
