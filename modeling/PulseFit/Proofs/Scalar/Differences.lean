import PulseFit.Proofs.Scalar.Sums

/-!
# Proofs.Scalar.Differences — differences that may be rearranged

`LawfulDifference` says that a difference is the sum with a negative, that a summand may change the
side of a comparison, and that a finite factor distributes over a sum.  As in `LawfulSum`, nothing
is rounded and, where finiteness is not asked for, infinities and `nan` are included.
-/

namespace PulseFit

namespace Scalar

/-- Differences without rounding. -/
class LawfulDifference (α : Type) [Scalar α] : Prop where
  sub_eq (x y : α) : x - y = x + -y
  neg_add (x y : α) : -(x + y) = -x + -y
  neg_neg (x : α) : - -x = x
  add_lt_iff {x y z : α} : x + y < z ↔ x < z - y
  sub_add_cancel (x : α) {y : α} : isFinite y = true → x - y + y = x
  mul_add {c : α} (x y : α) : isFinite c = true → c * (x + y) = c * x + c * y
  mul_zero {c : α} : isFinite c = true → c * 0.0 = 0.0

namespace LawfulDifference

variable {α : Type} [Scalar α] [LawfulSum α] [LawfulDifference α]

omit [LawfulSum α] in
theorem sub_neg (x y : α) : x - -y = x + y := by rw [sub_eq, neg_neg]

omit [LawfulSum α] in
theorem sub_lt_iff {x y z : α} : x - z < y ↔ x < y + z := by
  rw [sub_eq, add_lt_iff, sub_neg]

/-- A sum may be taken away summand by summand, the last one first. -/
theorem sub_add (x y z : α) : x - (y + z) = x - z - y := by
  rw [sub_eq, neg_add, ← LawfulSum.add_assoc, LawfulSum.add_right_comm, ← sub_eq, ← sub_eq]

theorem add_sub_right_comm (x y z : α) : x + y - z = x - z + y := by
  rw [sub_eq, LawfulSum.add_right_comm, ← sub_eq]

/-- What is added first may be taken away from the subtrahend. -/
theorem add_sub_eq (x y z : α) : x + y - z = x - (z - y) := by
  rw [sub_eq z, sub_add, sub_neg, add_sub_right_comm]

end LawfulDifference

end Scalar

namespace Exact

theorem neg_add_eq (x y : Exact) : (x.add y).neg = x.neg.add y.neg := by
  cases x <;> cases y <;> first | rfl | exact congrArg real (neg_add _ _)

theorem neg_neg_eq (x : Exact) : x.neg.neg = x := by
  cases x <;> first | rfl | exact congrArg real (neg_neg _)

theorem add_lt_iff (x y z : Exact) : x.add y < z ↔ x < z.add y.neg := by
  cases x <;> cases y <;> cases z <;>
    first | exact Iff.rfl | exact (lt_sub_iff_add_lt (α := ℝ)).symm

/-- A positive factor keeps infinities and a negative one turns them round, sums or not; zero leaves
no number of either. -/
theorem real_mul_add (c : ℝ) (x y : Exact) :
    (real c).mul (x.add y) = ((real c).mul x).add ((real c).mul y) := by
  rcases lt_trichotomy c 0 with hc | rfl | hc
  · have hneg : infinityOf (-c) = posInf := infinityOf_pos (neg_pos.mpr hc)
    cases x <;> cases y <;> simp only [add, mul, infinityOf_neg hc, hneg, mul_add]
  · cases x <;> cases y <;> simp only [add, mul, neg_zero, infinityOf_zero, mul_add]
  · have hneg : infinityOf (-c) = negInf := infinityOf_neg (neg_neg_of_pos hc)
    cases x <;> cases y <;> simp only [add, mul, infinityOf_pos hc, hneg, mul_add]

instance : Scalar.LawfulDifference Exact where
  sub_eq _ _ := rfl
  neg_add := neg_add_eq
  neg_neg := neg_neg_eq
  add_lt_iff := add_lt_iff _ _ _
  sub_add_cancel x {y} hy := by
    obtain ⟨y, rfl⟩ := exists_real_of_isFinite hy
    cases x with
    | real x => exact congrArg real (neg_add_cancel_right x y)
    | posInf => rfl
    | negInf => rfl
    | nan => rfl
  mul_add {c} x y hc := by
    obtain ⟨c, rfl⟩ := exists_real_of_isFinite hc
    exact real_mul_add c x y
  mul_zero {c} hc := by
    obtain ⟨c, rfl⟩ := exists_real_of_isFinite hc
    rw [zero_eq]
    exact congrArg real (MulZeroClass.mul_zero c)

end Exact

end PulseFit
