import PulseFit.Proofs.Scalar.Reals

/-!
# Proofs.Scalar.Sums — sums that may be rearranged

`LawfulSum` says that sums and products do not depend on the order in which they are taken, as is
the case where nothing is rounded.  The laws hold of all values, infinities and `nan` included, and
ask nothing of exponential, power, logarithm, cosine or Bessel function.
-/

namespace PulseFit

namespace Scalar

/-- Sums and products without rounding. -/
class LawfulSum (α : Type) [Scalar α] : Prop where
  add_comm (x y : α) : x + y = y + x
  add_assoc (x y z : α) : x + y + z = x + (y + z)
  zero_add (x : α) : 0.0 + x = x
  one_mul (x : α) : 1.0 * x = x
  mul_assoc (x y z : α) : x * y * z = x * (y * z)
  div_eq (x y : α) : x / y = x * (1.0 / y)
  two_mul (x : α) : 2.0 * x = x + x
  add_self_neg_iff {x : α} : x + x < 0.0 ↔ x < 0.0

namespace LawfulSum

variable {α : Type} [Scalar α] [LawfulSum α]

theorem add_zero (x : α) : x + 0.0 = x := by rw [add_comm, zero_add]

theorem add_right_comm (x y z : α) : x + y + z = x + z + y := by
  rw [add_assoc, add_comm y z, ← add_assoc]

theorem add_add_add_comm (w x y z : α) : w + x + (y + z) = w + y + (x + z) := by
  rw [← add_assoc, add_right_comm w x y, add_assoc]

/-- Summands may be added in any order. -/
theorem foldl_add_perm {ι : Type} (f : ι → α) {xs ys : List ι} (h : xs.Perm ys) (x : α) :
    xs.foldl (fun sum i => sum + f i) x = ys.foldl (fun sum i => sum + f i) x := by
  apply h.foldl_eq'
  intro i _ j _ sum
  exact add_right_comm ..

end LawfulSum

end Scalar

namespace Exact

/-! ## Products with infinities -/

theorem infinityOf_pos {x : ℝ} (h : 0 < x) : infinityOf x = posInf := if_pos h

theorem infinityOf_neg {x : ℝ} (h : x < 0) : infinityOf x = negInf :=
  (if_neg (not_lt_of_gt h)).trans (if_pos h)

theorem infinityOf_zero : infinityOf 0 = nan := by simp [infinityOf]

protected theorem mul_comm (x y : Exact) : x.mul y = y.mul x := by
  cases x <;> cases y <;> first | rfl | exact congrArg real (mul_comm _ _)

/-- A factor keeps, turns round or voids an infinity by its sign. -/
theorem real_mul_infinityOf (x y : ℝ) : (real x).mul (infinityOf y) = infinityOf (x * y) := by
  rcases lt_trichotomy y 0 with hy | rfl | hy
  · rw [infinityOf_neg hy]
    show infinityOf (-x) = infinityOf (x * y)
    rcases lt_trichotomy x 0 with hx | rfl | hx
    · rw [infinityOf_pos (neg_pos.mpr hx), infinityOf_pos (mul_pos_of_neg_of_neg hx hy)]
    · rw [neg_zero, zero_mul]
    · rw [infinityOf_neg (neg_neg_of_pos hx), infinityOf_neg (mul_neg_of_pos_of_neg hx hy)]
  · rw [infinityOf_zero, mul_zero, infinityOf_zero]
    rfl
  · rw [infinityOf_pos hy]
    show infinityOf x = infinityOf (x * y)
    rcases lt_trichotomy x 0 with hx | rfl | hx
    · rw [infinityOf_neg hx, infinityOf_neg (mul_neg_of_neg_of_pos hx hy)]
    · rw [zero_mul]
    · rw [infinityOf_pos hx, infinityOf_pos (mul_pos hx hy)]

theorem posInf_mul_infinityOf (x : ℝ) : posInf.mul (infinityOf x) = infinityOf x := by
  rcases lt_trichotomy x 0 with hx | rfl | hx
  · rw [infinityOf_neg hx]
    rfl
  · rw [infinityOf_zero]
    rfl
  · rw [infinityOf_pos hx]
    rfl

theorem negInf_mul_infinityOf (x : ℝ) : negInf.mul (infinityOf x) = infinityOf (-x) := by
  rcases lt_trichotomy x 0 with hx | rfl | hx
  · rw [infinityOf_neg hx, infinityOf_pos (neg_pos.mpr hx)]
    rfl
  · rw [neg_zero, infinityOf_zero]
    rfl
  · rw [infinityOf_pos hx, infinityOf_neg (neg_neg_of_pos hx)]
    rfl

theorem infinityOf_mul_real (x y : ℝ) : (infinityOf x).mul (real y) = infinityOf (x * y) := by
  rw [Exact.mul_comm, real_mul_infinityOf, mul_comm]

theorem infinityOf_mul_posInf (x : ℝ) : (infinityOf x).mul posInf = infinityOf x := by
  rw [Exact.mul_comm, posInf_mul_infinityOf]

theorem infinityOf_mul_negInf (x : ℝ) : (infinityOf x).mul negInf = infinityOf (-x) := by
  rw [Exact.mul_comm, negInf_mul_infinityOf]

theorem mul_nan (x : Exact) : x.mul nan = nan := by cases x <;> rfl

theorem nan_mul (x : Exact) : nan.mul x = nan := by cases x <;> rfl

theorem mul_real (x y : ℝ) : (real x).mul (real y) = real (x * y) := rfl

theorem posInf_mul_real (x : ℝ) : posInf.mul (real x) = infinityOf x := rfl

theorem real_mul_posInf (x : ℝ) : (real x).mul posInf = infinityOf x := rfl

theorem negInf_mul_real (x : ℝ) : negInf.mul (real x) = infinityOf (-x) := rfl

theorem real_mul_negInf (x : ℝ) : (real x).mul negInf = infinityOf (-x) := rfl

theorem posInf_mul_posInf : posInf.mul posInf = posInf := rfl

theorem posInf_mul_negInf : posInf.mul negInf = negInf := rfl

theorem negInf_mul_posInf : negInf.mul posInf = negInf := rfl

theorem negInf_mul_negInf : negInf.mul negInf = posInf := rfl

protected theorem mul_assoc (x y z : Exact) : (x.mul y).mul z = x.mul (y.mul z) := by
  cases x <;> cases y <;> cases z <;>
    simp only [mul_nan, nan_mul, mul_real, posInf_mul_real, real_mul_posInf, negInf_mul_real,
      real_mul_negInf, posInf_mul_posInf, posInf_mul_negInf, negInf_mul_posInf,
      negInf_mul_negInf, infinityOf_mul_real, real_mul_infinityOf, infinityOf_mul_posInf,
      posInf_mul_infinityOf, infinityOf_mul_negInf, negInf_mul_infinityOf, neg_mul, mul_neg,
      neg_neg, mul_assoc]

protected theorem add_comm (x y : Exact) : x.add y = y.add x := by
  cases x <;> cases y <;> first | rfl | exact congrArg real (add_comm _ _)

protected theorem add_assoc (x y z : Exact) : (x.add y).add z = x.add (y.add z) := by
  cases x <;> cases y <;> cases z <;> first | rfl | exact congrArg real (add_assoc _ _ _)

theorem one_mul_eq (x : Exact) : (1.0 : Exact) * x = x := by
  rw [one_eq]
  cases x with
  | real x => exact congrArg real (one_mul x)
  | posInf => exact infinityOf_pos one_pos
  | negInf => exact infinityOf_neg (neg_neg_of_pos one_pos)
  | nan => rfl

theorem two_mul_eq (x : Exact) : (2.0 : Exact) * x = x + x := by
  rw [two_eq]
  cases x with
  | real x => exact congrArg real (two_mul x)
  | posInf => exact infinityOf_pos two_pos
  | negInf => exact infinityOf_neg (neg_neg_of_pos two_pos)
  | nan => rfl

theorem add_self_neg_iff (x : Exact) : x + x < 0.0 ↔ x < 0.0 := by
  rw [zero_eq]
  cases x with
  | real x =>
    show x + x < 0 ↔ x < 0
    constructor <;> intro h <;> linarith
  | posInf => exact Iff.rfl
  | negInf => exact Iff.rfl
  | nan => exact Iff.rfl

instance : Scalar.LawfulSum Exact where
  add_comm := Exact.add_comm
  add_assoc := Exact.add_assoc
  zero_add x := by
    rw [zero_eq]
    cases x with
    | real x => exact congrArg real (zero_add x)
    | posInf => rfl
    | negInf => rfl
    | nan => rfl
  one_mul := one_mul_eq
  mul_assoc := Exact.mul_assoc
  div_eq x y := congrArg x.mul (one_mul_eq y.inv).symm
  two_mul := two_mul_eq
  add_self_neg_iff := add_self_neg_iff _

end Exact

end PulseFit
