import Mathlib.Analysis.SpecialFunctions.Gamma.Basic
import Mathlib.MeasureTheory.Integral.IntervalIntegral.Basic
import PulseFit.Proofs.Scalar.Lawful

/-!
# Proofs.Scalar.Exact — the arithmetic without rounding

Real numbers with two infinities and a value that is no number.  Infinities and `nan` come out where
the floating-point operations give them, so that `nan` has a source, but no result is rounded and
there is one zero only.  Cosine, power, Bessel and gamma function of an infinity are left as `nan`.
-/

namespace PulseFit

/-- A real number, an infinity or no number. -/
inductive Exact where
  | real (x : ℝ)
  | posInf
  | negInf
  | nan

namespace Exact

noncomputable section

open scoped Classical

/-! ## Arithmetic -/

def neg : Exact → Exact
  | real x => real (-x)
  | posInf => negInf
  | negInf => posInf
  | nan => nan

def add : Exact → Exact → Exact
  | real x, real y => real (x + y)
  | nan, _ | _, nan | posInf, negInf | negInf, posInf => nan
  | posInf, _ | _, posInf => posInf
  | negInf, _ | _, negInf => negInf

/-- The infinity of the sign of a number. -/
def infinityOf (x : ℝ) : Exact :=
  if 0 < x then posInf else if x < 0 then negInf else nan

def mul : Exact → Exact → Exact
  | real x, real y => real (x * y)
  | nan, _ | _, nan => nan
  | posInf, real x | real x, posInf => infinityOf x
  | negInf, real x | real x, negInf => infinityOf (-x)
  | posInf, posInf | negInf, negInf => posInf
  | posInf, negInf | negInf, posInf => negInf

/-- The reciprocal; zero counts as positive. -/
def inv : Exact → Exact
  | real x => if x = 0 then posInf else real x⁻¹
  | posInf | negInf => real 0
  | nan => nan

def lt : Exact → Exact → Prop
  | real x, real y => x < y
  | negInf, real _ | negInf, posInf | real _, posInf => True
  | _, _ => False

def le : Exact → Exact → Prop
  | real x, real y => x ≤ y
  | nan, _ | _, nan => False
  | negInf, _ | _, posInf => True
  | _, negInf | posInf, _ => False

def isNaN : Exact → Bool
  | nan => true
  | _ => false

def isFinite : Exact → Bool
  | real _ => true
  | _ => false

/-- The whole number below a real number. -/
def floor : Exact → Exact
  | real x => real ⌊x⌋
  | x => x

def toNat : Exact → Nat
  | real x => ⌊x⌋₊
  | _ => 0

/-! ## Functions -/

/-- A function of real numbers. -/
def lift (f : ℝ → ℝ) : Exact → Exact
  | real x => real (f x)
  | _ => nan

def exp : Exact → Exact
  | real x => real (Real.exp x)
  | posInf => posInf
  | negInf => real 0
  | nan => nan

def ln : Exact → Exact
  | real x => if 0 < x then real (Real.log x) else if x = 0 then negInf else nan
  | posInf => posInf
  | _ => nan

/-- The power of real numbers, `nan` for a negative base and an exponent that is not whole. -/
def pow : Exact → Exact → Exact
  | real x, real y =>
    if x = 0 ∧ y < 0 then posInf
    else if x < 0 ∧ ¬ ∃ n : ℤ, (n : ℝ) = y then nan
    else real (x ^ y)
  | _, _ => nan

/-- The Bessel function by its integral over half a turn. -/
def besselJ0 (x : ℝ) : ℝ := (∫ θ in (0)..Real.pi, Real.cos (x * Real.sin θ)) / Real.pi

/-- The circular convolution by its sum, times the length. -/
def circular (xs ys : Array Exact) : Array Exact :=
  let n := xs.size
  let entry (k i : Nat) : Exact :=
    (xs.getD i (real 0)).mul (ys.getD ((k + n - i) % n) (real 0))
  Array.ofFn fun k : Fin n =>
    (real n).mul ((List.range n).foldl (fun s i => s.add (entry k i)) (real 0))

/-! ## Single precision -/

/-- The number of the bits without the sign.  The first bits above the finite ones count as the next
power of two. -/
def ofMagnitude (m : Nat) : ℝ :=
  if m < 2 ^ 23 then m * (2 : ℝ) ^ (-149 : ℤ)
  else (2 ^ 23 + m % 2 ^ 23 : ℕ) * (2 : ℝ) ^ ((m / 2 ^ 23 : ℕ) - 150 : ℤ)

/-- The bits of the nearest number, even ones if two are as near. -/
def nearestMagnitude (x : ℝ) : Nat :=
  let m := Nat.findGreatest (fun m => ofMagnitude m ≤ x) Single.infiniteMagnitude
  let below := x - ofMagnitude m
  let above := ofMagnitude (m + 1) - x
  if m = Single.infiniteMagnitude ∨ below < above ∨ (below = above ∧ m % 2 = 0) then m else m + 1

def toSingle : Exact → Single
  | real x => ⟨UInt32.ofNat (nearestMagnitude |x| + if x < 0 then 0x80000000 else 0)⟩
  | posInf => ⟨0x7F800000⟩
  | negInf => ⟨0xFF800000⟩
  | nan => ⟨0x7FC00000⟩

def ofSingle (x : Single) : Exact :=
  if x.isNaN then nan
  else if x.isInfinite then if x.negative then negInf else posInf
  else real (if x.negative then -ofMagnitude x.magnitude else ofMagnitude x.magnitude)

instance : Scalar Exact where
  add := add
  neg := neg
  sub x y := x.add y.neg
  mul := mul
  div x y := x.mul y.inv
  lt := lt
  le := le
  beq x y := decide (le x y ∧ le y x)
  ofScientific m s e := real (OfScientific.ofScientific m s e)
  decideLT := fun _ _ => Classical.propDecidable _
  decideLE := fun _ _ => Classical.propDecidable _
  ofNat n := real n
  toNat := toNat
  floor := floor
  isNaN := isNaN
  isFinite := isFinite
  infinity := posInf
  pi := real Real.pi
  tiny := real (2 ^ (-1022 : ℤ))
  exp := exp
  ln := ln
  cos := lift Real.cos
  pow := pow
  besselJ0 := lift besselJ0
  lnGamma := lift fun x => Real.log |Real.Gamma x|
  circular := circular
  totalLe x y := decide (le x y) || isNaN y
  toSingle := toSingle
  ofSingle := ofSingle

/-! ## Laws -/

@[simp] theorem real_lt_real {x y : ℝ} : real x < real y ↔ x < y := Iff.rfl

@[simp] theorem real_le_real {x y : ℝ} : real x ≤ real y ↔ x ≤ y := Iff.rfl

@[simp] theorem real_sub_real (x y : ℝ) : real x - real y = real (x - y) :=
  congrArg real (sub_eq_add_neg x y).symm

@[simp] theorem isFinite_real (x : ℝ) : Scalar.isFinite (real x) = true := rfl

@[simp] theorem isNaN_real (x : ℝ) : Scalar.isNaN (real x) = false := rfl

/-- A decimal numeral is the number that it denotes. -/
theorem ofScientific_eq (m : Nat) (s : Bool) (e : Nat) :
    (OfScientific.ofScientific m s e : Exact) = real (OfScientific.ofScientific m s e) := rfl

@[simp] theorem zero_eq : (0.0 : Exact) = real 0 := by
  rw [ofScientific_eq]
  norm_num

theorem one_eq : (1.0 : Exact) = real 1 := by
  rw [ofScientific_eq]
  norm_num

theorem two_eq : (2.0 : Exact) = real 2 := by
  rw [ofScientific_eq]
  norm_num

theorem half_eq : (0.5 : Exact) = real (1 / 2) := by
  rw [ofScientific_eq]
  norm_num

theorem exists_real_of_isFinite {x : Exact} (h : Scalar.isFinite x = true) : ∃ r, x = real r := by
  cases x with
  | real r => exact ⟨r, rfl⟩
  | posInf => cases h
  | negInf => cases h
  | nan => cases h

theorem ln_real {x : ℝ} (h : 0 < x) : Scalar.ln (real x) = real (Real.log x) := if_pos h

theorem ln_zero : Scalar.ln (real 0) = negInf := by
  have h : ¬ (0 : ℝ) < 0 := lt_irrefl 0
  exact (if_neg h).trans (if_pos rfl)

protected theorem le_trans {x y z : Exact} (hxy : x ≤ y) (hyz : y ≤ z) : x ≤ z := by
  cases x <;> cases y <;> cases z <;>
    first
      | exact trivial
      | exact real_le_real.mpr (le_trans (real_le_real.mp hxy) (real_le_real.mp hyz))
      | exact hxy.elim
      | exact hyz.elim

instance : Scalar.LawfulOrder Exact where
  isNaN_of_isFinite h := by
    obtain ⟨r, rfl⟩ := exists_real_of_isFinite h
    rfl
  isNaN_neg x := by cases x <;> rfl
  isFinite_zero := rfl
  isFinite_pi := rfl
  isFinite_neg_pi := rfl
  neg_pi_le_pi := neg_le_self Real.pi_nonneg
  le_of_lt {x y} h := by
    cases x <;> cases y <;>
      first | exact trivial | exact real_le_real.mpr (le_of_lt (real_lt_real.mp h)) | exact h.elim
  lt_of_not_le hx hy h := by
    obtain ⟨r, rfl⟩ := exists_real_of_isFinite hx
    obtain ⟨t, rfl⟩ := exists_real_of_isFinite hy
    exact real_lt_real.mpr (lt_of_not_ge (mt real_le_real.mpr h))
  lt_trans {x y z} hxy hyz := by
    cases x <;> cases y <;> cases z <;>
      first
        | exact trivial
        | exact real_lt_real.mpr (lt_trans (real_lt_real.mp hxy) (real_lt_real.mp hyz))
        | exact hxy.elim
        | exact hyz.elim
  sub_nonneg hx hy h := by
    obtain ⟨r, rfl⟩ := exists_real_of_isFinite hx
    obtain ⟨t, rfl⟩ := exists_real_of_isFinite hy
    rw [zero_eq, real_sub_real, real_le_real]
    exact sub_nonneg.mpr h

instance : Scalar.LawfulZero Exact where
  zero_beq := decide_eq_true ⟨real_le_real.mpr le_rfl, real_le_real.mpr le_rfl⟩
  zero_not_neg h := lt_irrefl _ (real_lt_real.mp h)

instance : Scalar.LawfulLog Exact where
  isNaN_ln {x} h := by
    rw [zero_eq] at h
    cases x with
    | real r =>
      rcases (real_le_real.mp h).lt_or_eq with hpos | rfl
      · rw [ln_real hpos, isNaN_real]
      · rw [ln_zero]
        rfl
    | posInf => rfl
    | negInf => exact h.elim
    | nan => exact h.elim
  isFinite_ln hx hpos := by
    obtain ⟨r, rfl⟩ := exists_real_of_isFinite hx
    rw [zero_eq, real_lt_real] at hpos
    rw [ln_real hpos, isFinite_real]
  ln_le_ln {x y} hpos hy hxy := by
    obtain ⟨t, rfl⟩ := exists_real_of_isFinite hy
    rw [zero_eq] at hpos
    cases x with
    | real r =>
      have hr : 0 < r := hpos
      have hrt : r ≤ t := hxy
      rw [ln_real hr, ln_real (hr.trans_le hrt), real_le_real]
      exact Real.log_le_log hr hrt
    | posInf => exact hxy.elim
    | negInf => exact hpos.elim
    | nan => exact hpos.elim

theorem totalLe_iff {x y : Exact} : Scalar.totalLe x y = true ↔ x ≤ y ∨ y = nan := by
  have hnan : isNaN y = true ↔ y = nan := by cases y <;> simp [isNaN]
  rw [← hnan]
  show (decide (le x y) || isNaN y) = true ↔ _
  rw [Bool.or_eq_true, decide_eq_true_eq]
  rfl

instance : Scalar.LawfulTotal Exact where
  totalLe_total x y := by
    rw [totalLe_iff, totalLe_iff]
    cases x <;> cases y <;>
      first
        | exact .inl (.inr rfl)
        | exact .inr (.inr rfl)
        | exact .inl (.inl trivial)
        | exact .inr (.inl trivial)
        | exact (le_total (_ : ℝ) _).imp (.inl ∘ real_le_real.mpr) (.inl ∘ real_le_real.mpr)
  totalLe_trans {x y z} hxy hyz := by
    rw [totalLe_iff] at hxy hyz ⊢
    rcases hyz with hyz | rfl
    · rcases hxy with hxy | rfl
      · exact .inl (Exact.le_trans hxy hyz)
      · cases z <;> exact hyz.elim
    · exact .inr rfl
  le_of_totalLe _ hy h := by
    refine (totalLe_iff.mp h).resolve_right ?_
    rintro rfl
    cases hy

protected theorem le_antisymm {x y : Exact} (hxy : x ≤ y) (hyx : y ≤ x) : x = y := by
  cases x <;> cases y <;>
    first
      | rfl
      | exact congrArg real (le_antisymm (real_le_real.mp hxy) (real_le_real.mp hyx))
      | exact hxy.elim
      | exact hyx.elim

instance : Scalar.LinearTotal Exact where
  totalLe_total := Scalar.LawfulTotal.totalLe_total
  totalLe_trans := Scalar.LawfulTotal.totalLe_trans
  totalLe_antisymm {x y} hxy hyx := by
    rw [totalLe_iff] at hxy hyx
    rcases hxy with hxy | rfl
    · rcases hyx with hyx | rfl
      · exact Exact.le_antisymm hxy hyx
      · cases y <;> exact hxy.elim
    · rcases hyx with hyx | rfl
      · cases x <;> exact hyx.elim
      · rfl

end

end Exact

end PulseFit
