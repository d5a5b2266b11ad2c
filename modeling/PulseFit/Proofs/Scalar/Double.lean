import Mathlib
import PulseFit.Scalar.Double
import PulseFit.Proofs.Scalar.Lawful

/-!
# Proofs.Scalar.Double — doubles are ordered as numbers are

Double-precision numbers obey the laws of comparison, negation and difference.  A number has a place
by its kind, exponent and mantissa, and comparison goes by the place (`lt_iff`, `le_iff`).  Rounding
never changes a sign and never makes a number that is none, so that a difference is on the side of
zero where the exact one is (`sub_nonneg`).  The logarithm is the machine's own; `LawfulLog Float`
is what remains to be asked of it.  All values, the one that is no number among them, are told apart
by the linear order (`totalPlace_injective`).
-/

namespace PulseFit.Double

open Float.Model (Format UnpackedFloat)
open Float.Model.UnpackedFloat

/-! ## Signs -/

/-- The sign of a value that is a number. -/
def sign? : UnpackedFloat → Option Sign
  | .notANumber => none
  | .infinity s => some s
  | .zero s => some s
  | .finite s _ _ _ => some s

/-- What is unpacked has the sign of the bits unless they hold no number. -/
theorem sign?_unpack_packComponents (s : Sign) (e : BitVec Format.binary64.exponentBits)
    (m : BitVec Format.binary64.mantissaBitsWithoutImplicit) (h : e = -1#_ → m = 0#_) :
    sign? (unpack Format.binary64 (packComponents Format.binary64 s e m)) = some s := by
  unfold unpack
  simp only [unpackMantissa_packComponents, unpackExponent_packComponents,
    unpackSign_packComponents, Sign.ofBitVec_toBitVec]
  by_cases he : e = -1#_
  · rw [if_pos he, if_pos (h he)]
    rfl
  · rw [if_neg he]
    split
    · split <;> rfl
    · rfl

/-- Packing keeps the sign of a number. -/
theorem sign?_unpack_pack (u : UnpackedFloat) :
    sign? (unpack Format.binary64 (pack Format.binary64 u)) = sign? u := by
  fun_cases pack Format.binary64 u with
  | case1 => rfl
  | case2 s => exact sign?_unpack_packComponents s _ _ fun _ => rfl
  | case3 s => exact sign?_unpack_packComponents s _ _ fun _ => rfl
  | case4 s m e hm b h => exact sign?_unpack_packComponents s _ _ fun _ => rfl
  | case5 s m e hm l b h₁ h₂ =>
    refine sign?_unpack_packComponents s _ _ fun he => absurd he ?_
    -- the exponent is below the one that marks infinities
    intro he
    have he := congrArg BitVec.toNat he
    have hb : b % 2 ^ 11 = 2 ^ 11 - 1 := he
    have hlt : b + 1 < 2 ^ 11 := Nat.lt_of_not_le h₁
    omega
  | case6 s m e hm l b h₁ h₂ =>
    refine sign?_unpack_packComponents s _ _ fun he => absurd he ?_
    decide

/-! ## Order -/

/-- The place of a number among all numbers: its kind, its exponent and its mantissa. -/
def place : UnpackedFloat → ℤ ×ₗ ℤ ×ₗ ℤ
  | .notANumber => toLex (0, toLex (0, 0))
  | .infinity .negative => toLex (-2, toLex (0, 0))
  | .finite .negative m e _ => toLex (-1, toLex (-e, -m))
  | .zero _ => toLex (0, toLex (0, 0))
  | .finite .positive m e _ => toLex (1, toLex (e, m))
  | .infinity .positive => toLex (2, toLex (0, 0))

theorem unpacked_lt_iff {u v : UnpackedFloat} :
    u.lt v = true ↔ u.isNaN = false ∧ v.isNaN = false ∧ place u < place v := by
  rcases u with (_ | _) | _ | _ | ⟨_ | _, m, e, hm⟩ <;>
    rcases v with (_ | _) | _ | _ | ⟨_ | _, m', e', hm'⟩ <;>
    simp [UnpackedFloat.lt, UnpackedFloat.compare, isNaN, place, Prod.Lex.toLex_lt_toLex,
      Ordering.then_eq_lt, Ordering.then_eq_gt, Ordering.swap_eq_lt, Int.compare_eq_lt,
      Int.compare_eq_gt, Nat.compare_eq_lt, Nat.compare_eq_gt]
  rfl

theorem isLE_lex {e e' : Int} {m m' : Nat} :
    ((compare e e').then (compare m m')).isLE = true ↔ e < e' ∨ e = e' ∧ m ≤ m' := by
  rw [Ordering.isLE_then_iff_or, Int.compare_eq_lt, Int.compare_eq_eq, Nat.isLE_compare]

theorem isGE_lex {e e' : Int} {m m' : Nat} :
    ((compare e e').then (compare m m')).isGE = true ↔ e' < e ∨ e = e' ∧ m' ≤ m := by
  rw [← Ordering.isLE_swap, Ordering.swap_then, Int.compare_swap, Nat.compare_swap, isLE_lex,
    eq_comm]

theorem unpacked_le_iff {u v : UnpackedFloat} :
    u.le v = true ↔ u.isNaN = false ∧ v.isNaN = false ∧ place u ≤ place v := by
  rcases u with (_ | _) | _ | _ | ⟨_ | _, m, e, hm⟩ <;>
    rcases v with (_ | _) | _ | _ | ⟨_ | _, m', e', hm'⟩ <;>
    simp [UnpackedFloat.le, UnpackedFloat.compare, isNaN, place, Prod.Lex.toLex_le_toLex,
      isLE_lex, isGE_lex]
  all_goals rfl

/-! ## Differences -/

/-- A mantissa of at most 53 bits, and of no fewer unless the exponent is the least. -/
def Canonical (m : Nat) (e : Int) : Prop := m < 2 ^ 53 ∧ -1074 ≤ e ∧ (2 ^ 52 ≤ m ∨ e = -1074)

theorem toNat_one_append {n : Nat} (v : BitVec n) : (1#1 ++ v).toNat = 2 ^ n + v.toNat := by
  rw [BitVec.toNat_append, ← Nat.shiftLeft_add_eq_or_of_lt v.isLt, Nat.shiftLeft_eq]
  simp

theorem canonical_of_unpack {b : BitVec Format.binary64.numBits} {s : Sign} {m : Nat} {e : Int}
    {hm : 0 < m} (h : unpack Format.binary64 b = .finite s m e hm) : Canonical m e := by
  have hbias : Format.binary64.exponentBias = 1023 := rfl
  have hmantissa : (unpackMantissa b).toNat < 2 ^ 52 := (unpackMantissa b).isLt
  unfold unpack at h
  simp only at h
  split at h
  · split at h <;> cases h
  · split at h
    · next hzero =>
      split at h
      · cases h
      · -- a number without the implicit bit has the least exponent
        cases h
        have hexp : (unpackExponent b).toNat = 0 := congrArg BitVec.toNat hzero
        refine ⟨?_, ?_, ?_⟩ <;> omega
    · next hzero =>
      cases h
      have hexp : (unpackExponent b).toNat ≠ 0 := fun h0 => hzero (BitVec.eq_of_toNat_eq h0)
      have hone : (1#1 ++ unpackMantissa b).toNat = 2 ^ 52 + (unpackMantissa b).toNat :=
        toNat_one_append (unpackMantissa b)
      refine ⟨?_, ?_, ?_⟩ <;> omega

/-- Mantissas brought to one exponent are ordered as the numbers are. -/
theorem shift_lt_shift {m m' : Nat} {e e' : Int} (h : Canonical m e) (h' : Canonical m' e')
    (hlt : e < e' ∨ e = e' ∧ m < m') :
    m <<< (e - min e e').toNat < m' <<< (e' - min e e').toNat := by
  rw [Nat.shiftLeft_eq, Nat.shiftLeft_eq]
  rcases hlt with hlt | ⟨rfl, hlt⟩
  · have hmin : min e e' = e := min_eq_left hlt.le
    have hpow : 2 ≤ 2 ^ (e' - e).toNat := by
      have hd : 1 ≤ (e' - e).toNat := by omega
      exact Nat.pow_le_pow_right (n := 2) (by decide) hd
    -- the greater exponent is not the least one
    have hm' : 2 ^ 52 ≤ m' := h'.2.2.resolve_right (by have := h.2.1; omega)
    rw [hmin, Int.sub_self, Int.toNat_zero, Nat.pow_zero, Nat.mul_one]
    calc m < 2 ^ 52 * 2 := h.1
      _ ≤ m' * 2 ^ (e' - e).toNat := Nat.mul_le_mul hm' hpow
  · rw [min_self]
    exact Nat.mul_lt_mul_of_pos_right hlt (Nat.two_pow_pos _)

/-- Numbers brought to one exponent have signed mantissas in their order. -/
theorem apply_shift_lt {s t : Sign} {m m' : Nat} {e e' : Int} {hm : 0 < m} {hm' : 0 < m'}
    (hc : Canonical m e) (hc' : Canonical m' e')
    (h : place (.finite s m e hm) < place (.finite t m' e' hm')) :
    s.apply (m <<< (e - min e' e).toNat : Nat) < t.apply (m' <<< (e' - min e' e).toNat : Nat) := by
  cases s with
  | negative =>
    cases t with
    | negative =>
      have hlex : e' < e ∨ e' = e ∧ m' < m := by
        simpa [place, Prod.Lex.toLex_lt_toLex, eq_comm] using h
      exact Int.neg_lt_neg (Int.ofNat_lt.mpr (shift_lt_shift hc' hc hlex))
    | positive =>
      have hpos : 0 < m <<< (e - min e' e).toNat := by
        rw [Nat.shiftLeft_eq]
        exact Nat.mul_pos hm (Nat.two_pow_pos _)
      have hneg : -((m <<< (e - min e' e).toNat : Nat) : Int) < 0 :=
        Int.neg_neg_of_pos (Int.natCast_pos.mpr hpos)
      exact Int.lt_of_lt_of_le hneg (Int.natCast_nonneg _)
  | positive =>
    cases t with
    | negative => simp [place, Prod.Lex.toLex_lt_toLex] at h
    | positive =>
      have hlex : e < e' ∨ e = e' ∧ m < m' := by
        simpa [place, Prod.Lex.toLex_lt_toLex] using h
      have hshift := shift_lt_shift hc hc' hlex
      rw [min_comm] at hshift
      exact Int.ofNat_lt.mpr hshift

theorem apply_shift_le {s t : Sign} {m m' : Nat} {e e' : Int} {hm : 0 < m} {hm' : 0 < m'}
    (hc : Canonical m e) (hc' : Canonical m' e')
    (h : place (.finite s m e hm) ≤ place (.finite t m' e' hm')) :
    s.apply (m <<< (e - min e' e).toNat : Nat) ≤ t.apply (m' <<< (e' - min e' e).toNat : Nat) := by
  rcases h.lt_or_eq with hlt | heq
  · exact (apply_shift_lt hc hc' hlt).le
  · -- at one place stands one number
    obtain ⟨rfl, rfl, rfl⟩ : s = t ∧ m = m' ∧ e = e' := by
      cases s <;> cases t <;> simp_all [place]
    exact le_rfl

/-- Not below zero. -/
def NonNeg (u : UnpackedFloat) : Prop := (∃ s, u = .zero s) ∨ sign? u = some .positive

theorem nonNeg_round {m : Nat} {e : Int} :
    NonNeg (UnpackedFloat.round Format.binary64 .positive m e) := by
  unfold UnpackedFloat.round roundWithAccuracy
  simp only
  split
  · exact .inl ⟨_, rfl⟩
  · exact .inr rfl

theorem nonNeg_normalize {m e : Int} (h : 0 ≤ m) :
    NonNeg (UnpackedFloat.normalize Format.binary64 m e .positive) := by
  unfold UnpackedFloat.normalize
  split
  · next hlt =>
    rw [Int.compare_eq_lt] at hlt
    omega
  · exact .inl ⟨_, rfl⟩
  · exact nonNeg_round

/-- A number less one that is not above it is not below zero. -/
theorem nonNeg_sub {u v : UnpackedFloat} (hu : ∀ s m e hm, u = .finite s m e hm → Canonical m e)
    (hv : ∀ s m e hm, v = .finite s m e hm → Canonical m e) (hfu : u.isFinite = true)
    (hfv : v.isFinite = true) (h : u.le v = true) : NonNeg (sub Format.binary64 v u) := by
  have hplace : place u ≤ place v := (unpacked_le_iff.mp h).2.2
  rcases u with s | _ | s | ⟨s, m, e, hm⟩
  · cases hfu
  · cases hfu
  · rcases v with t | _ | t | ⟨t, m', e', hm'⟩
    · cases hfv
    · cases hfv
    · show NonNeg (if t == -s then .zero t else .zero .positive)
      split <;> exact .inl ⟨_, rfl⟩
    · cases t
      · simp [place, Prod.Lex.toLex_le_toLex] at hplace
      · exact .inr rfl
  · rcases v with t | _ | t | ⟨t, m', e', hm'⟩
    · cases hfv
    · cases hfv
    · cases s
      · exact .inr rfl
      · simp [place, Prod.Lex.toLex_le_toLex] at hplace
    · have hle := apply_shift_le (hu s m e hm rfl) (hv t m' e' hm' rfl) hplace
      exact nonNeg_normalize (Int.sub_nonneg.mpr hle)

/-! ## Packed numbers -/

theorem nonNeg_unpack_pack {u : UnpackedFloat} (h : NonNeg u) :
    NonNeg (unpack Format.binary64 (pack Format.binary64 u)) := by
  rcases h with ⟨s, rfl⟩ | h
  · refine .inl ⟨s, ?_⟩
    cases s <;> rfl
  · exact .inr ((sign?_unpack_pack u).trans h)

theorem zero_le_of_nonNeg {u : UnpackedFloat} (h : NonNeg u) :
    UnpackedFloat.le (.zero .positive) u = true := by
  rcases h with ⟨s, rfl⟩ | h
  · rfl
  · rcases u with s | _ | s | ⟨s, m, e, hm⟩
    · cases h
      rfl
    · cases h
    · rfl
    · cases h
      rfl

/-- The number that a double holds. -/
abbrev value (x : Float) : UnpackedFloat := x.toModel.unpack

theorem lt_iff {x y : Float} :
    x < y ↔
      (value x).isNaN = false ∧ (value y).isNaN = false ∧ place (value x) < place (value y) := by
  have hlt : x < y ↔ (value x).lt (value y) = true := decide_eq_true_iff
  rw [hlt, unpacked_lt_iff]

theorem le_iff {x y : Float} :
    x ≤ y ↔
      (value x).isNaN = false ∧ (value y).isNaN = false ∧ place (value x) ≤ place (value y) := by
  have hle : x ≤ y ↔ (value x).le (value y) = true := decide_eq_true_iff
  rw [hle, unpacked_le_iff]

theorem isNaN_eq_isNone (u : UnpackedFloat) : u.isNaN = (sign? u).isNone := by cases u <;> rfl

theorem isNaN_neg (x : Float) : (-x).isNaN = x.isNaN := by
  show (unpack Format.binary64 (pack Format.binary64 (value x).neg)).isNaN = (value x).isNaN
  rw [isNaN_eq_isNone, sign?_unpack_pack, isNaN_eq_isNone]
  cases value x <;> rfl

theorem isNaN_of_isFinite {u : UnpackedFloat} (h : u.isFinite = true) : u.isNaN = false := by
  cases u with
  | notANumber => cases h
  | infinity s => cases h
  | zero s => rfl
  | finite s m e hm => rfl

theorem canonical_value (x : Float) (s : Sign) (m : Nat) (e : Int) (hm : 0 < m)
    (h : value x = .finite s m e hm) : Canonical m e := canonical_of_unpack h

theorem sub_nonneg {x y : Float} (hx : x.isFinite = true) (hy : y.isFinite = true) (h : x ≤ y) :
    0.0 ≤ y - x := by
  have hsub : NonNeg (sub Format.binary64 (value y) (value x)) :=
    nonNeg_sub (canonical_value x) (canonical_value y) hx hy (unpacked_le_iff.mpr (le_iff.mp h))
  exact decide_eq_true (zero_le_of_nonNeg (nonNeg_unpack_pack hsub))

instance : Scalar.LawfulOrder Float where
  isNaN_of_isFinite h := isNaN_of_isFinite h
  isNaN_neg := isNaN_neg
  isFinite_zero := by decide
  isFinite_pi := by decide
  isFinite_neg_pi := by decide
  neg_pi_le_pi := by decide
  le_of_lt {x y} h := by
    obtain ⟨hx, hy, hlt⟩ := lt_iff.mp h
    exact le_iff.mpr ⟨hx, hy, le_of_lt hlt⟩
  lt_of_not_le {x y} hx hy h := by
    have hx := isNaN_of_isFinite hx
    have hy := isNaN_of_isFinite hy
    exact lt_iff.mpr ⟨hy, hx, lt_of_not_ge fun hle => h (le_iff.mpr ⟨hx, hy, hle⟩)⟩
  lt_trans {x y z} hxy hyz := by
    obtain ⟨hx, -, hxy⟩ := lt_iff.mp hxy
    obtain ⟨-, hz, hyz⟩ := lt_iff.mp hyz
    exact lt_iff.mpr ⟨hx, hz, lt_trans hxy hyz⟩
  sub_nonneg := sub_nonneg

instance : Scalar.LawfulZero Float where
  zero_beq := by decide
  zero_not_neg := by decide

/-! ## All values -/

/-- The place of a double by its bits, read as a number: those with the sign bit come first, in
descending order. -/
theorem toNat_totalPlace (x : Float) :
    (totalPlace x).toNat =
      if x.toBits.toNat < 2 ^ 63 then 2 ^ 63 + x.toBits.toNat else 2 ^ 64 - 1 - x.toBits.toNat := by
  have hlt : x.toBits.toNat < 2 ^ 64 := UInt64.toNat_lt _
  have hsign : x.toBits &&& 0x8000000000000000 = 0 ↔ x.toBits.toNat < 2 ^ 63 := by
    have hmask : x.toBits.toNat &&& 2 ^ 63 = (x.toBits.toNat.testBit 63).toNat * 2 ^ 63 :=
      Nat.and_two_pow ..
    have hbit : (0x8000000000000000 : UInt64).toNat = 2 ^ 63 := rfl
    rw [← UInt64.toNat_inj, UInt64.toNat_and, hbit, hmask, Nat.testBit_eq_decide_div_mod_eq]
    by_cases h : x.toBits.toNat / 2 ^ 63 % 2 = 1
    · simp
      omega
    · simp
      omega
  unfold totalPlace
  by_cases h : x.toBits.toNat < 2 ^ 63
  · simp only [hsign.mpr h, if_true]
    rw [if_pos h, UInt64.toNat_or, Nat.or_comm]
    exact (Nat.two_pow_add_eq_or_of_lt h 1).symm
  · simp only [mt hsign.mp h, if_false]
    rw [if_neg h, UInt64.toNat_not]
    rfl

theorem totalPlace_injective : Function.Injective totalPlace := by
  intro x y h
  have hplace : (totalPlace x).toNat = (totalPlace y).toNat := congrArg _ h
  rw [toNat_totalPlace, toNat_totalPlace] at hplace
  have hx : x.toBits.toNat < 2 ^ 64 := UInt64.toNat_lt _
  have hy : y.toBits.toNat < 2 ^ 64 := UInt64.toNat_lt _
  have hbits : x.toBits.toNat = y.toBits.toNat := by
    split at hplace <;> split at hplace <;> omega
  obtain ⟨⟨x, hvalid⟩⟩ := x
  obtain ⟨⟨y, hvalid'⟩⟩ := y
  obtain rfl : x = y := UInt64.toNat_inj.mp hbits
  rfl

theorem totalLe_iff {x y : Float} : Scalar.totalLe x y = true ↔ totalPlace x ≤ totalPlace y :=
  decide_eq_true_iff

instance : Scalar.LinearTotal Float where
  totalLe_total x y := by
    rw [totalLe_iff, totalLe_iff]
    exact UInt64.le_total (totalPlace x) (totalPlace y)
  totalLe_trans {x y z} hxy hyz := by
    rw [totalLe_iff] at hxy hyz ⊢
    exact UInt64.le_trans hxy hyz
  totalLe_antisymm {x y} hxy hyx := by
    rw [totalLe_iff] at hxy hyx
    exact totalPlace_injective (UInt64.le_antisymm hxy hyx)

end PulseFit.Double
