import PulseFit.Proofs.Scalar.Double
import PulseFit.Proofs.Scalar.Infinities

/-!
# Proofs.Scalar.Rounding — no difference is rounded to zero

Mantissa and exponent of every double lie in bounds within which a number has at least one digit
left after rounding (`round_fits`).  So a difference that is not zero has a rounded value that is
not zero either, of the same sign; together with the infinities this says exactly when a difference
is not negative (`nonNeg_sub_iff`).
-/

namespace PulseFit.Double

open Float.Model (Format UnpackedFloat totalExponent)
open Float.Model.UnpackedFloat

/-! ## Rounding -/

/-- A mantissa and an exponent that doubles have. -/
structure Fits (m : Nat) (e : Int) : Prop where
  mantissa_lt : m < 2 ^ 53
  exponent_ge : -1074 ≤ e

theorem Canonical.fits {m : Nat} {e : Int} (h : Canonical m e) : Fits m e := ⟨h.1, h.2.1⟩

theorem targetExponent_eq (k : Int) : Format.binary64.targetExponent k = max (k - 53) (-1074) := rfl

theorem mantissa_shiftRight (x : ExtendedMantissa) (n : Nat) :
    (x >>> n).mantissa = x.mantissa / 2 ^ n := by
  show (n.repeat ExtendedMantissa.shiftRightOne x).mantissa = x.mantissa / 2 ^ n
  induction n with
  | zero => exact (Nat.div_one _).symm
  | succ n ih =>
    show (n.repeat ExtendedMantissa.shiftRightOne x).mantissa / 2 = x.mantissa / 2 ^ (n + 1)
    rw [ih, Nat.div_div_eq_div_mul, Nat.pow_succ]

/-- Shifted to the exponent for its size, a number has a digit left and at most 53 of them. -/
theorem shifted_fits {m : Nat} {e : Int} (hm : 0 < m) (he : -1074 ≤ e) (a : Accuracy) :
    0 < (shiftToTargetExponent Format.binary64 m e a).1.mantissa ∧
      Fits (shiftToTargetExponent Format.binary64 m e a).1.mantissa
        (shiftToTargetExponent Format.binary64 m e a).2 := by
  have hstart : (ExtendedMantissa.ofMantissaAndAccuracy m a).mantissa = m := by
    rcases a with _ | (_ | _ | _) <;> rfl
  simp only [shiftToTargetExponent, shiftToExponent, mantissa_shiftRight, hstart,
    targetExponent_eq, totalExponent]
  have hlow : 2 ^ m.log2 ≤ m := Nat.log2_self_le hm.ne'
  have hhigh : m < 2 ^ (m.log2 + 1) := Nat.lt_log2_self
  rcases Nat.lt_or_ge m.log2 52 with hsmall | hlarge
  · -- all digits stay
    have hamount : (max ((m.log2 : Int) + 1 + e - 53) (-1074) - e).toNat = 0 := by omega
    have hbound : m < 2 ^ 53 :=
      hhigh.trans_le (Nat.pow_le_pow_right (n := 2) (by decide) (by omega))
    rw [hamount, Nat.pow_zero, Nat.div_one]
    exact ⟨hm, hbound, by omega⟩
  · -- 53 digits stay
    have hamount : (max ((m.log2 : Int) + 1 + e - 53) (-1074) - e).toNat = m.log2 - 52 := by omega
    have hpow : 2 ^ (m.log2 - 52) ≤ m :=
      (Nat.pow_le_pow_right (n := 2) (by decide) (by omega)).trans hlow
    have hsplit : 2 ^ (m.log2 + 1) = 2 ^ 53 * 2 ^ (m.log2 - 52) := by
      rw [← Nat.pow_add]
      congr 1
      omega
    rw [hamount]
    refine ⟨Nat.div_pos hpow (Nat.two_pow_pos _), ?_, by omega⟩
    rw [Nat.div_lt_iff_lt_mul (Nat.two_pow_pos _), ← hsplit]
    exact hhigh

theorem le_roundedMantissa (x : ExtendedMantissa) : x.mantissa ≤ x.roundedMantissa := by
  obtain ⟨m, _ | _, _ | _⟩ := x
  · exact le_rfl
  · exact le_rfl
  · exact Nat.le_add_right m (m % 2)
  · exact Nat.le_succ m

/-- Rounding keeps the sign, and what is not zero does not become zero. -/
theorem roundWithAccuracy_fits (s : Sign) {m : Nat} {e : Int} (hm : 0 < m) (he : -1074 ≤ e)
    (a : Accuracy) :
    ∃ m' e' hm', roundWithAccuracy Format.binary64 s m e a = .finite s m' e' hm' ∧
      Fits m' e' := by
  obtain ⟨hpos, hfits⟩ := shifted_fits hm he a
  -- a digit may be carried, so the rounded number is shifted again
  obtain ⟨hpos', hfits'⟩ :=
    shifted_fits (hpos.trans_le (le_roundedMantissa _)) hfits.exponent_ge .exact
  exact ⟨_, _, hpos', dif_neg hpos'.ne', hfits'⟩

theorem round_fits (s : Sign) {m : Nat} {e : Int} (hm : 0 < m) (he : -1074 ≤ e) :
    ∃ m' e' hm', UnpackedFloat.round Format.binary64 s m e = .finite s m' e' hm' ∧ Fits m' e' := by
  refine roundWithAccuracy_fits s ?_ ?_ .exact
  · rw [Nat.shiftLeft_eq]
    exact Nat.mul_pos hm (Nat.two_pow_pos _)
  · rw [targetExponent_eq]
    omega

/-- A number that fits is not packed as zero. -/
theorem unpack_pack_ne_zero {s t : Sign} {m : Nat} {e : Int} {hm : 0 < m} (h : Fits m e) :
    unpack Format.binary64 (UnpackedFloat.pack Format.binary64 (.finite s m e hm)) ≠ .zero t := by
  intro heq
  rw [unpack_eq_zero_iff_of_valid valid_pack] at heq
  have hge := h.exponent_ge
  have hlt := h.mantissa_lt
  simp only [UnpackedFloat.pack, packedInfinity, packedZero] at heq
  split at heq
  · have hexponent := congrArg unpackExponent heq
    rw [unpackExponent_packComponents, unpackExponent_packComponents] at hexponent
    exact absurd hexponent (by decide)
  · next hfinite =>
    split at heq
    · -- the exponent in the bits is one at least
      have hexponent := congrArg (fun b => (unpackExponent b).toNat) heq
      simp only [unpackExponent_packComponents, BitVec.toNat_ofNat] at hexponent
      have hzero : (e + (1023 : Nat) + (52 : Nat)).toNat % 2 ^ 11 = 0 := hexponent
      have hsmall : ¬ 2 ^ 11 ≤ (e + (1023 : Nat) + (52 : Nat)).toNat + 1 := hfinite
      omega
    · -- the mantissa in the bits is the whole one
      next hbits =>
      have hmantissa := congrArg (fun b => (unpackMantissa b).toNat) heq
      simp only [unpackMantissa_packComponents, BitVec.toNat_ofNat] at hmantissa
      have hzero : m % 2 ^ 52 = 0 := hmantissa
      have hbits : ¬ m.log2 + 1 = 53 := hbits
      have hlog : m.log2 < 53 := (Nat.log2_lt hm.ne').mpr hlt
      have hsmall : m < 2 ^ 52 := (Nat.log2_lt hm.ne').mp (by omega)
      omega

/-! ## Differences -/

/-- A number that is packed with all its digits. -/
def Packable (u : UnpackedFloat) : Prop := ∀ s m e hm, u = .finite s m e hm → Fits m e

theorem packable_round (s : Sign) {m : Nat} {e : Int} (hm : 0 < m) (he : -1074 ≤ e) :
    Packable (UnpackedFloat.round Format.binary64 s m e) := by
  obtain ⟨m', e', hm', heq, hfits⟩ := round_fits s hm he
  rintro t n k hn hround
  rw [heq] at hround
  cases hround
  exact hfits

theorem packable_normalize {m e : Int} (he : -1074 ≤ e) :
    Packable (UnpackedFloat.normalize Format.binary64 m e .positive) := by
  unfold UnpackedFloat.normalize
  split
  · next hneg =>
    rw [Int.compare_eq_lt] at hneg
    exact packable_round _ (by omega) he
  · exact nofun
  · next hpos =>
    rw [Int.compare_eq_gt] at hpos
    exact packable_round _ (by omega) he

/-- A negative number stays negative when it is rounded. -/
theorem not_nonNeg_normalize {m e : Int} (hm : m < 0) (he : -1074 ≤ e) :
    ¬ NonNeg (UnpackedFloat.normalize Format.binary64 m e .positive) := by
  obtain ⟨m', e', hm', heq, -⟩ := round_fits .negative (m := (-m).toNat) (by omega) he
  have hnormalize : UnpackedFloat.normalize Format.binary64 m e .positive =
      .finite .negative m' e' hm' := by
    rw [← heq, UnpackedFloat.normalize, Int.compare_eq_lt.mpr hm]
  rw [hnormalize]
  rintro (⟨s, hs⟩ | hs) <;> cases hs

section Differences

variable {u v : UnpackedFloat} (hu : ∀ s m e hm, u = .finite s m e hm → Canonical m e)
  (hv : ∀ s m e hm, v = .finite s m e hm → Canonical m e)

include hu hv

theorem packable_sub : Packable (sub Format.binary64 v u) := by
  fun_cases sub Format.binary64 v u with
  | case9 t s m e hm =>
    rintro s' m' e' hm' heq
    cases heq
    exact (hu s m e hm rfl).fits
  | case10 => exact fun s m e hm heq => (hv s m e hm heq).fits
  | case11 s₁ m₁ e₁ hm₁ s₂ m₂ e₂ hm₂ =>
    have hge := (hv s₁ m₁ e₁ hm₁ rfl).fits.exponent_ge
    have hge' := (hu s₂ m₂ e₂ hm₂ rfl).fits.exponent_ge
    exact packable_normalize (le_min hge hge')
  | _ => exact nofun

/-- A number less one above it is below zero. -/
theorem not_nonNeg_sub (hfu : u.isFinite = true) (hfv : v.isFinite = true)
    (h : place v < place u) : ¬ NonNeg (sub Format.binary64 v u) := by
  rcases u with s | _ | s | ⟨s, m, e, hm⟩
  · cases hfu
  · cases hfu
  · rcases v with t | _ | t | ⟨t, m', e', hm'⟩
    · cases hfv
    · cases hfv
    · exact absurd h (lt_irrefl _)
    · cases t
      · rintro (⟨s, hs⟩ | hs) <;> cases hs
      · simp [place, Prod.Lex.toLex_lt_toLex] at h
  · rcases v with t | _ | t | ⟨t, m', e', hm'⟩
    · cases hfv
    · cases hfv
    · cases s
      · simp [place, Prod.Lex.toLex_lt_toLex] at h
      · rintro (⟨s, hs⟩ | hs) <;> cases hs
    · have hcu := hu s m e hm rfl
      have hcv := hv t m' e' hm' rfl
      have hlt := apply_shift_lt hcv hcu h
      rw [min_comm] at hlt
      exact not_nonNeg_normalize (Int.sub_neg_of_lt hlt)
        (le_min hcv.fits.exponent_ge hcu.fits.exponent_ge)

/-- A difference is not negative if it is of numbers in their order; infinities have one only if
they are different. -/
theorem nonNeg_sub_iff :
    NonNeg (sub Format.binary64 v u) ↔
      u.lt v = true ∨ u.isFinite = true ∧ v.isFinite = true ∧ u.le v = true := by
  by_cases hfinite : u.isFinite = true ∧ v.isFinite = true
  · obtain ⟨hfu, hfv⟩ := hfinite
    have hnu := isNaN_of_isFinite hfu
    have hnv := isNaN_of_isFinite hfv
    rw [unpacked_lt_iff, unpacked_le_iff]
    rcases le_or_gt (place u) (place v) with hle | hlt
    · exact iff_of_true (nonNeg_sub hu hv hfu hfv (unpacked_le_iff.mpr ⟨hnu, hnv, hle⟩))
        (.inr ⟨hfu, hfv, hnu, hnv, hle⟩)
    · exact iff_of_false (not_nonNeg_sub hu hv hfu hfv hlt) fun h =>
        h.elim (fun h => hlt.not_gt h.2.2) fun h => hlt.not_ge h.2.2.2.2
  · rw [or_iff_left fun h => hfinite ⟨h.1, h.2.1⟩]
    rcases u with (_ | _) | _ | _ | ⟨_ | _, m, e, hm⟩ <;>
      rcases v with (_ | _) | _ | _ | ⟨_ | _, m', e', hm'⟩ <;>
      first
        | exact absurd ⟨rfl, rfl⟩ hfinite
        | exact iff_of_true (.inr rfl) rfl
        | exact iff_of_false (by rintro (⟨s, hs⟩ | hs) <;> cases hs) (by decide)
        | exact iff_of_false (by rintro (⟨s, hs⟩ | hs) <;> cases hs) nofun

end Differences

/-! ## Packed numbers -/

theorem nonNeg_unpack_pack_iff {u : UnpackedFloat} (hu : Packable u) :
    NonNeg (unpack Format.binary64 (UnpackedFloat.pack Format.binary64 u)) ↔ NonNeg u := by
  refine ⟨fun h => ?_, nonNeg_unpack_pack⟩
  rcases h with ⟨t, ht⟩ | h
  · -- only zeros are packed as zeros
    rcases u with (_ | _) | _ | s | ⟨s, m, e, hm⟩
    · cases ht
    · cases ht
    · cases ht
    · exact .inl ⟨s, rfl⟩
    · exact absurd ht (unpack_pack_ne_zero (hu s m e hm rfl))
  · exact .inr ((sign?_unpack_pack u).symm.trans h)

theorem zero_le_iff {x : Float} : 0.0 ≤ x ↔ NonNeg (value x) := by
  refine ⟨fun h => ?_, fun h => decide_eq_true (zero_le_of_nonNeg h)⟩
  obtain ⟨-, hx, hplace⟩ := le_iff.mp h
  generalize value x = u at hx hplace
  have hzero : place (value 0.0) = place (.zero .positive) := rfl
  rw [hzero] at hplace
  rcases u with (_ | _) | _ | s | ⟨_ | _, m, e, hm⟩
  · simp [place, Prod.Lex.toLex_le_toLex] at hplace
  · exact .inr rfl
  · cases hx
  · exact .inl ⟨s, rfl⟩
  · simp [place, Prod.Lex.toLex_le_toLex] at hplace
  · exact .inr rfl

theorem zero_le_sub_iff {x y : Float} :
    0.0 ≤ y - x ↔ x < y ∨ x.isFinite = true ∧ y.isFinite = true ∧ x ≤ y := by
  have hsub : value (y - x) = unpack Format.binary64
      (UnpackedFloat.pack Format.binary64 (sub Format.binary64 (value y) (value x))) := rfl
  have hlt : x < y ↔ (value x).lt (value y) = true := decide_eq_true_iff
  have hle : x ≤ y ↔ (value x).le (value y) = true := decide_eq_true_iff
  rw [zero_le_iff, hsub,
    nonNeg_unpack_pack_iff (packable_sub (canonical_value x) (canonical_value y)),
    nonNeg_sub_iff (canonical_value x) (canonical_value y), hlt, hle]
  rfl

/-- What lies between a finite number and another is finite. -/
theorem isFinite_of_between {x y z : Float} (hx : x.isFinite = true) (hxy : x ≤ y) (hyz : y < z) :
    y.isFinite = true := by
  have hx : (value x).isFinite = true := hx
  obtain ⟨-, hy, hxy⟩ := le_iff.mp hxy
  obtain ⟨-, -, hyz⟩ := lt_iff.mp hyz
  show (value y).isFinite = true
  generalize value x = u at hx hxy
  generalize value y = v at hy hxy hyz
  generalize value z = w at hyz
  rcases v with (_ | _) | _ | _ | _
  · -- nothing finite is below the least value
    rcases u with _ | _ | _ | ⟨_ | _, m, e, hm⟩
    · cases hx
    · cases hx
    all_goals simp [place, Prod.Lex.toLex_le_toLex] at hxy
  · -- nothing is above the greatest value
    rcases w with (_ | _) | _ | _ | ⟨_ | _, m, e, hm⟩
    all_goals simp [place, Prod.Lex.toLex_lt_toLex] at hyz
  · cases hy
  · rfl
  · rfl

/-- The least value absorbs finite numbers. -/
theorem add_negInfinity {x : Float} (h : x.isFinite = true) :
    x + Scalar.negInfinity = Scalar.negInfinity := by
  have hneg : value Scalar.negInfinity = .infinity .negative := rfl
  have hadd : UnpackedFloat.add Format.binary64 (value x) (value Scalar.negInfinity) =
      .infinity .negative := by
    rw [hneg]
    have hx : (value x).isFinite = true := h
    generalize value x = u at hx
    rcases u with s | _ | s | ⟨s, m, e, hm⟩
    · cases hx
    · cases hx
    · rfl
    · rfl
  show Float.ofModel (Float.Model.pack
    (UnpackedFloat.add Format.binary64 (value x) (value Scalar.negInfinity))) = Scalar.negInfinity
  rw [hadd]
  rfl

instance : Scalar.LawfulInfinity Float where
  isNaN_of_le h := ⟨(le_iff.mp h).1, (le_iff.mp h).2.1⟩
  not_le_of_lt h h' := absurd (le_iff.mp h').2.2 (lt_iff.mp h).2.2.not_ge
  isFinite_of_between := isFinite_of_between
  zero_le_sub_iff := zero_le_sub_iff
  add_negInfinity := add_negInfinity

end PulseFit.Double
