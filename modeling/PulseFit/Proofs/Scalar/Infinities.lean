import PulseFit.Proofs.Scalar.Exact

/-!
# Proofs.Scalar.Infinities — what is asked of infinities

Bounds need not be finite, and then a difference or a logarithm may be no number.  `LawfulInfinity`
says when a difference is not negative, which settles whether it is a number at all, and
`LawfulLogEnds` where the logarithm of zero and of infinity stand.  Both hold with rounding too: a
difference of two different numbers is never rounded to zero.
-/

namespace PulseFit

namespace Scalar

/-- Comparisons, and differences and sums where infinities may occur. -/
class LawfulInfinity (α : Type) [Scalar α] : Prop where
  isNaN_of_le {x y : α} : x ≤ y → isNaN x = false ∧ isNaN y = false
  not_le_of_lt {x y : α} : x < y → ¬ y ≤ x
  isFinite_of_between {x y z : α} : isFinite x = true → x ≤ y → y < z → isFinite y = true
  zero_le_sub_iff {x y : α} :
    0.0 ≤ y - x ↔ x < y ∨ isFinite x = true ∧ isFinite y = true ∧ x ≤ y
  add_negInfinity {x : α} : isFinite x = true → x + negInfinity = negInfinity

theorem isNaN_of_zero_le_sub {α : Type} [Scalar α] [LawfulOrder α] [LawfulInfinity α] {x y : α}
    (h : 0.0 ≤ y - x) : isNaN x = false ∧ isNaN y = false := by
  rcases LawfulInfinity.zero_le_sub_iff.mp h with hlt | ⟨-, -, hle⟩
  · exact LawfulInfinity.isNaN_of_le (LawfulOrder.le_of_lt hlt)
  · exact LawfulInfinity.isNaN_of_le hle

/-- Only what is not negative has a logarithm; that of zero is below, and that of infinity above,
all others. -/
class LawfulLogEnds (α : Type) [Scalar α] : Prop where
  zero_le_of_ln {x : α} : isNaN (ln x) = false → 0.0 ≤ x
  ln_lt_ln {x y : α} : 0.0 ≤ x → x < y → x ≤ 0.0 ∨ isFinite y = false → ln x < ln y

end Scalar

namespace Exact

instance : Scalar.LawfulInfinity Exact where
  isNaN_of_le {x y} h := by
    cases x <;> cases y <;> first | exact ⟨rfl, rfl⟩ | exact h.elim
  not_le_of_lt {x y} h h' := by
    cases x <;> cases y <;>
      first
        | exact h.elim
        | exact h'.elim
        | exact not_le_of_gt (real_lt_real.mp h) (real_le_real.mp h')
  isFinite_of_between {x y z} hx hxy hyz := by
    obtain ⟨x, rfl⟩ := exists_real_of_isFinite hx
    cases y with
    | real y => rfl
    | posInf => cases z <;> exact hyz.elim
    | negInf => exact hxy.elim
    | nan => exact hxy.elim
  zero_le_sub_iff {x y} := by
    rw [zero_eq]
    by_cases hfinite : Scalar.isFinite x = true ∧ Scalar.isFinite y = true
    · obtain ⟨x, rfl⟩ := exists_real_of_isFinite hfinite.1
      obtain ⟨y, rfl⟩ := exists_real_of_isFinite hfinite.2
      rw [real_sub_real, real_le_real, sub_nonneg]
      exact ⟨fun h => .inr ⟨rfl, rfl, h⟩,
        fun h => h.elim (fun h => le_of_lt (real_lt_real.mp h)) (·.2.2)⟩
    · have hlt : real 0 ≤ y - x ↔ x < y := by
        cases x <;> cases y <;>
          first
            | exact Iff.rfl
            | exact iff_of_true trivial trivial
            | exact absurd ⟨rfl, rfl⟩ hfinite
      rw [hlt]
      exact (or_iff_left fun h => hfinite ⟨h.1, h.2.1⟩).symm
  add_negInfinity {x} h := by
    obtain ⟨x, rfl⟩ := exists_real_of_isFinite h
    rfl

instance : Scalar.LawfulLogEnds Exact where
  zero_le_of_ln {x} h := by
    rw [zero_eq]
    cases x with
    | real x =>
      refine real_le_real.mpr (le_of_not_gt fun hneg => ?_)
      have hln : Scalar.ln (real x) = nan := (if_neg hneg.not_gt).trans (if_neg hneg.ne)
      rw [hln] at h
      cases h
    | posInf => exact trivial
    | negInf => cases h
    | nan => cases h
  ln_lt_ln {x y} hx hlt hends := by
    rw [zero_eq] at hx hends
    cases y with
    | real y =>
      -- a finite number above zero itself
      have hzero := hends.resolve_right nofun
      cases x with
      | real x =>
        obtain rfl : x = 0 := le_antisymm hzero hx
        rw [ln_zero, ln_real hlt]
        exact trivial
      | posInf => exact hzero.elim
      | negInf => exact hx.elim
      | nan => exact hx.elim
    | posInf =>
      cases x with
      | real x =>
        rcases (real_le_real.mp hx).eq_or_lt with rfl | hpos
        · rw [ln_zero]
          exact trivial
        · rw [ln_real hpos]
          exact trivial
      | posInf => exact hlt.elim
      | negInf => exact hx.elim
      | nan => exact hx.elim
    | negInf => cases x <;> exact hlt.elim
    | nan => cases x <;> exact hlt.elim

end Exact

end PulseFit
