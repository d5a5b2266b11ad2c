import PulseFit.Proofs.Rate.Positive

/-!
# Proofs.Rate.Peak — a pulse with exponents of its own peaks at its height

Before the peak of such a pulse one power holds it down, after the peak another, and at the peak
they are in balance: when the time since the onset is multiplied by a factor, what one power loses
the other more than makes up for (`add_le_of_balanced`).  So the shift of the exponent is the least
value of the sum of both powers (`isLeast_peakShift`).  The shifted exponent is never positive, the
cap of the exponential is out of its reach, and the pulse attains its height but never exceeds it
(`fredx_peak`).
-/

namespace PulseFit.Rate

open Exact (real real_add_real real_mul_real real_sub_real)

variable {scale tau xi gamma nu : ℝ}

/-! ## Balance -/

/-- Two amounts in balance do not become less together when each is multiplied by a power of one
factor, the first by a power of its reciprocal. -/
theorem add_le_of_balanced {a b : ℝ} (ha : 0 ≤ a) (hb : 0 ≤ b) (h : gamma * a = nu * b) (z : ℝ) :
    a + b ≤ a * Real.exp (-z * gamma) + b * Real.exp (z * nu) := by
  have hrise : a * (-z * gamma + 1) ≤ a * Real.exp (-z * gamma) :=
    mul_le_mul_of_nonneg_left (Real.add_one_le_exp _) ha
  have hfall : b * (z * nu + 1) ≤ b * Real.exp (z * nu) :=
    mul_le_mul_of_nonneg_left (Real.add_one_le_exp _) hb
  have hcancel : a * (-z * gamma) + b * (z * nu) = 0 := by linear_combination -z * h
  linarith

/-- The logarithm of the time from the onset to the peak, in units of `tau`. -/
noncomputable def lnPeak (xi gamma nu : ℝ) : ℝ :=
  (Real.log (gamma / nu) + (gamma - nu) * Real.log xi) / (gamma + nu)

/-- The time at `z` in a logarithmic scale with the peak at zero. -/
noncomputable def timeAt (tau xi gamma nu z : ℝ) : ℝ := tau * Real.exp (lnPeak xi gamma nu + z)

theorem timeAt_pos (htau : 0 < tau) (z : ℝ) : 0 < timeAt tau xi gamma nu z :=
  mul_pos htau (Real.exp_pos _)

theorem exists_timeAt (htau : 0 < tau) {dt : ℝ} (hdt : 0 < dt) :
    ∃ z, dt = timeAt tau xi gamma nu z := by
  refine ⟨Real.log (dt / tau) - lnPeak xi gamma nu, ?_⟩
  rw [timeAt, add_sub_cancel, Real.exp_log (div_pos hdt htau), mul_div_cancel₀ _ htau.ne']

section

variable (htau : 0 < tau) (hxi : 0 < xi) (hgamma : 0 < gamma) (hnu : 0 < nu)

include htau hxi hgamma hnu

/-- What holds the pulse down before its peak. -/
theorem rise_timeAt (z : ℝ) :
    (xi * tau / timeAt tau xi gamma nu z) ^ gamma =
      xi ^ (2 * gamma * nu / (gamma + nu)) * (gamma / nu) ^ (-gamma / (gamma + nu)) *
        Real.exp (-z * gamma) := by
  have hsum : gamma + nu ≠ 0 := (add_pos hgamma hnu).ne'
  have hbase : xi * tau / timeAt tau xi gamma nu z =
      Real.exp (Real.log xi - (lnPeak xi gamma nu + z)) := by
    rw [timeAt, Real.exp_sub, Real.exp_log hxi, mul_comm xi, mul_div_mul_left _ _ htau.ne']
  rw [hbase, ← Real.exp_mul, Real.rpow_def_of_pos hxi,
    Real.rpow_def_of_pos (div_pos hgamma hnu), ← Real.exp_add, ← Real.exp_add, lnPeak]
  congr 1
  field_simp
  ring

/-- What holds it down after its peak. -/
theorem fall_timeAt (z : ℝ) :
    (xi * timeAt tau xi gamma nu z / tau) ^ nu =
      xi ^ (2 * gamma * nu / (gamma + nu)) * (gamma / nu) ^ (nu / (gamma + nu)) *
        Real.exp (z * nu) := by
  have hsum : gamma + nu ≠ 0 := (add_pos hgamma hnu).ne'
  have hbase : xi * timeAt tau xi gamma nu z / tau =
      Real.exp (Real.log xi + (lnPeak xi gamma nu + z)) := by
    rw [timeAt, Real.exp_add (Real.log xi), Real.exp_log hxi, mul_left_comm,
      mul_div_cancel_left₀ _ htau.ne']
  rw [hbase, ← Real.exp_mul, Real.rpow_def_of_pos hxi,
    Real.rpow_def_of_pos (div_pos hgamma hnu), ← Real.exp_add, ← Real.exp_add, lnPeak]
  congr 1
  field_simp
  ring

omit htau hxi in
/-- At the peak the two are in balance. -/
theorem balanced_at_peak (c : ℝ) :
    gamma * (c * (gamma / nu) ^ (-gamma / (gamma + nu))) =
      nu * (c * (gamma / nu) ^ (nu / (gamma + nu))) := by
  have hsum : gamma + nu ≠ 0 := (add_pos hgamma hnu).ne'
  have hratio : 0 < gamma / nu := div_pos hgamma hnu
  have hpower : nu / (gamma + nu) = 1 + -gamma / (gamma + nu) := by
    field_simp
    ring
  rw [hpower, Real.rpow_add hratio, Real.rpow_one]
  field_simp

theorem opposed_at_peak : opposed tau xi gamma nu (timeAt tau xi gamma nu 0) =
    peakShift xi gamma nu := by
  rw [opposed, rise_timeAt htau hxi hgamma hnu, fall_timeAt htau hxi hgamma hnu, neg_zero,
    zero_mul, zero_mul, Real.exp_zero, peakShift_eq]
  ring

theorem peakShift_le_opposed {dt : ℝ} (hdt : 0 < dt) :
    peakShift xi gamma nu ≤ opposed tau xi gamma nu dt := by
  have hratio : 0 < gamma / nu := div_pos hgamma hnu
  have hscale : 0 < xi ^ (2 * gamma * nu / (gamma + nu)) := Real.rpow_pos_of_pos hxi _
  obtain ⟨z, rfl⟩ : ∃ z, dt = timeAt tau xi gamma nu z := exists_timeAt htau hdt
  rw [opposed, rise_timeAt htau hxi hgamma hnu, fall_timeAt htau hxi hgamma hnu, peakShift_eq,
    mul_add, add_comm]
  exact add_le_of_balanced (mul_pos hscale (Real.rpow_pos_of_pos hratio _)).le
    (mul_pos hscale (Real.rpow_pos_of_pos hratio _)).le (balanced_at_peak hgamma hnu _) z

/-- The shift of the exponent is the least that the two powers come to together. -/
theorem isLeast_peakShift :
    IsLeast (opposed tau xi gamma nu '' Set.Ioi 0) (peakShift xi gamma nu) := by
  refine ⟨⟨_, timeAt_pos htau 0, opposed_at_peak htau hxi hgamma hnu⟩, ?_⟩
  rintro _ ⟨dt, hdt, rfl⟩
  exact peakShift_le_opposed htau hxi hgamma hnu hdt

end

/-! ## The pulse -/

/-- The exponential is not capped where the argument is not positive. -/
theorem cappedExp_of_nonpos {x : ℝ} (hx : x ≤ 0) :
    cappedExp (real x) = Scalar.exp (real x) := by
  have hlimit : (exponentLimit : Exact) = real 709.78 := Exact.ofScientific_eq ..
  have hlt : real x < real 709.78 := Exact.real_lt_real.mpr (hx.trans_lt (by norm_num))
  unfold cappedExp
  rw [hlimit, if_pos hlt]

theorem tiny_le_one : (2 : ℝ) ^ (-1022 : ℤ) ≤ 1 :=
  zpow_le_one_of_nonpos₀ one_le_two (by norm_num)

section

variable {start t : ℝ}

/-- Up to the onset a tiny part of the height remains. -/
theorem fredx_of_le (ht : t ≤ start) :
    fredx (real start) (real scale) (real tau) (real xi) (real gamma) (real nu) (real t) =
      real (2 ^ (-1022 : ℤ) * scale) := by
  have hdt : real t - real start ≤ 0.0 := by
    rw [Exact.zero_eq, real_sub_real]
    exact sub_nonpos.mpr ht
  exact if_pos hdt

variable (htau : 0 < tau) (hxi : 0 < xi) (hgamma : 0 < gamma) (hnu : 0 < nu) (ht : start < t)

include htau hxi hgamma hnu ht

theorem shiftedExponent_real :
    fredxExponent (real tau) (real xi) (real gamma) (real nu) (real t - real start) +
        fredxNorm (real xi) (real gamma) (real nu) =
      real (-opposed tau xi gamma nu (t - start) + peakShift xi gamma nu) := by
  rw [real_sub_real, fredxExponent_real htau hxi (sub_pos.mpr ht), fredxNorm_real hxi hgamma hnu,
    real_add_real]

/-- The cap plays no part. -/
theorem fredx_of_lt :
    fredx (real start) (real scale) (real tau) (real xi) (real gamma) (real nu) (real t) =
      real scale * Scalar.exp
        (fredxExponent (real tau) (real xi) (real gamma) (real nu) (real t - real start) +
          fredxNorm (real xi) (real gamma) (real nu)) := by
  have hdt : ¬ real t - real start ≤ 0.0 := by
    rw [Exact.zero_eq, real_sub_real]
    exact not_le_of_gt (sub_pos.mpr ht)
  have hexponent : -opposed tau xi gamma nu (t - start) + peakShift xi gamma nu ≤ 0 := by
    linarith [peakShift_le_opposed htau hxi hgamma hnu (sub_pos.mpr ht)]
  unfold fredx
  rw [if_neg hdt, shiftedExponent_real htau hxi hgamma hnu ht, cappedExp_of_nonpos hexponent]

theorem fredx_real :
    fredx (real start) (real scale) (real tau) (real xi) (real gamma) (real nu) (real t) =
      real (scale * Real.exp (-opposed tau xi gamma nu (t - start) + peakShift xi gamma nu)) := by
  rw [fredx_of_lt htau hxi hgamma hnu ht, shiftedExponent_real htau hxi hgamma hnu ht]
  rfl

end

/-- The shift of the exponent is the least value of the sum of both powers.  The pulse is positive,
does not exceed its height, attains it behind the onset, and is what it would be without the cap. -/
theorem fredx_peak (hscale : 0 < scale) (htau : 0 < tau) (hxi : 0 < xi) (hgamma : 0 < gamma)
    (hnu : 0 < nu) (start : ℝ) :
    (∃ norm, fredxNorm (real xi) (real gamma) (real nu) = real norm ∧
      IsLeast ((fun dt => (xi * tau / dt) ^ gamma + (xi * dt / tau) ^ nu) '' Set.Ioi 0) norm) ∧
    (∀ t, ∃ y, 0 < y ∧ y ≤ scale ∧
      fredx (real start) (real scale) (real tau) (real xi) (real gamma) (real nu) (real t) =
        real y) ∧
    (∃ t, start < t ∧
      fredx (real start) (real scale) (real tau) (real xi) (real gamma) (real nu) (real t) =
        real scale) ∧
    ∀ t, start < t →
      fredx (real start) (real scale) (real tau) (real xi) (real gamma) (real nu) (real t) =
        real scale * Scalar.exp
          (fredxExponent (real tau) (real xi) (real gamma) (real nu) (real t - real start) +
            fredxNorm (real xi) (real gamma) (real nu)) := by
  refine ⟨⟨_, fredxNorm_real hxi hgamma hnu, isLeast_peakShift htau hxi hgamma hnu⟩,
    fun t => ?_, ?_, fun t ht => fredx_of_lt htau hxi hgamma hnu ht⟩
  · rcases le_or_gt t start with ht | ht
    · exact ⟨_, mul_pos tiny_pos hscale, mul_le_of_le_one_left hscale.le tiny_le_one,
        fredx_of_le ht⟩
    · have hexponent : -opposed tau xi gamma nu (t - start) + peakShift xi gamma nu ≤ 0 := by
        linarith [peakShift_le_opposed htau hxi hgamma hnu (sub_pos.mpr ht)]
      exact ⟨_, mul_pos hscale (Real.exp_pos _),
        mul_le_of_le_one_right hscale.le (Real.exp_le_one_iff.mpr hexponent),
        fredx_real htau hxi hgamma hnu ht⟩
  · have ht : start < start + timeAt tau xi gamma nu 0 := lt_add_of_pos_right _ (timeAt_pos htau 0)
    refine ⟨_, ht, ?_⟩
    rw [fredx_real htau hxi hgamma hnu ht, add_sub_cancel_left,
      opposed_at_peak htau hxi hgamma hnu, neg_add_cancel, Real.exp_zero, mul_one]

/-- A rise steeper than the decay. -/
theorem fredx_peak_steep :
    (∃ norm, fredxNorm (real 4) (real 3) (real 1) = real norm ∧
      IsLeast ((fun dt : ℝ => (4 * 1 / dt) ^ (3 : ℝ) + (4 * dt / 1) ^ (1 : ℝ)) '' Set.Ioi 0) norm) ∧
    ∃ t, 4 < t ∧ fredx (real 4) (real 5) (real 1) (real 4) (real 3) (real 1) (real t) = real 5 := by
  obtain ⟨hnorm, -, hpeak, -⟩ := fredx_peak (by norm_num : (0 : ℝ) < 5) (one_pos : (0 : ℝ) < 1)
    (by norm_num : (0 : ℝ) < 4) (by norm_num : (0 : ℝ) < 3) (one_pos : (0 : ℝ) < 1) 4
  exact ⟨hnorm, hpeak⟩

end PulseFit.Rate
