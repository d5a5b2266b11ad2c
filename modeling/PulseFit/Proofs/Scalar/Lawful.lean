import PulseFit.Scalar

/-!
# Proofs.Scalar.Lawful — what is asked of the arithmetic

The laws below hold of numbers with rounding as well as of exact ones.  None of them gives a
result its value: they say which comparisons follow from others, which results are numbers, and
that subtraction and logarithm keep the order.
-/

namespace PulseFit

namespace Scalar

/-- Comparison, negation and difference of finite numbers. -/
class LawfulOrder (α : Type) [Scalar α] : Prop where
  isNaN_of_isFinite {x : α} : isFinite x = true → isNaN x = false
  isNaN_neg (x : α) : isNaN (-x) = isNaN x
  isFinite_zero : isFinite (0.0 : α) = true
  isFinite_pi : isFinite (pi : α) = true
  isFinite_neg_pi : isFinite (-pi : α) = true
  neg_pi_le_pi : (-pi : α) ≤ pi
  le_of_lt {x y : α} : x < y → x ≤ y
  lt_of_not_le {x y : α} : isFinite x = true → isFinite y = true → ¬ x ≤ y → y < x
  lt_trans {x y z : α} : x < y → y < z → x < z
  sub_nonneg {x y : α} : isFinite x = true → isFinite y = true → x ≤ y → 0.0 ≤ y - x

/-- Zero is equal to itself and not below itself. -/
class LawfulZero (α : Type) [Scalar α] : Prop where
  zero_beq : ((0.0 : α) == 0.0) = true
  zero_not_neg : ¬ (0.0 : α) < 0.0

/-- The logarithm of a number that is not negative is a number, perhaps the least or the greatest
value; of positive finite numbers it is finite and keeps the order. -/
class LawfulLog (α : Type) [Scalar α] : Prop where
  isNaN_ln {x : α} : 0.0 ≤ x → isNaN (ln x) = false
  isFinite_ln {x : α} : isFinite x = true → 0.0 < x → isFinite (ln x) = true
  ln_le_ln {x y : α} : 0.0 < x → isFinite y = true → x ≤ y → ln x ≤ ln y

/-- `totalLe` is a linear order on all values, of numbers the usual one. -/
class LawfulTotal (α : Type) [Scalar α] : Prop where
  totalLe_total (x y : α) : totalLe x y = true ∨ totalLe y x = true
  totalLe_trans {x y z : α} : totalLe x y = true → totalLe y z = true → totalLe x z = true
  le_of_totalLe {x y : α} : isNaN x = false → isNaN y = false → totalLe x y = true → x ≤ y

/-- `totalLe` is a linear order on all values, which tells any two of them apart. -/
class LinearTotal (α : Type) [Scalar α] : Prop where
  totalLe_total (x y : α) : totalLe x y = true ∨ totalLe y x = true
  totalLe_trans {x y z : α} : totalLe x y = true → totalLe y z = true → totalLe x z = true
  totalLe_antisymm {x y : α} : totalLe x y = true → totalLe y x = true → x = y

end Scalar

end PulseFit
