import PulseFit.Json.Fields
import PulseFit.Proofs.Scalar.Exact

/-!
# Proofs.Decimal — natural numbers as numerals

A natural number that fits into the machine word of its reader is read back from its numeral, as a
natural number (`natural?_ofNat`) and, where nothing is rounded, as a number (`scaled?_ofNat`).
-/

namespace PulseFit

namespace Numeral

/-- Digits behind a number make it no smaller. -/
theorem le_ofDigitChars (digits : List Char) (n : Nat) : n ≤ Nat.ofDigitChars 10 digits n := by
  induction digits generalizing n with
  | nil => exact Nat.le_refl n
  | cons c digits ih =>
    rw [Nat.ofDigitChars_cons]
    have := ih (10 * n + (c.toNat - '0'.toNat))
    omega

/-- Digits are gathered in full while they make a number below the bound. -/
theorem foldl_gatherWhole (digits : List Char) (n : Nat)
    (h : Nat.ofDigitChars 10 digits n < gatherBound) :
    digits.foldl gatherWhole ⟨n, 0, false⟩ = ⟨Nat.ofDigitChars 10 digits n, 0, false⟩ := by
  induction digits generalizing n with
  | nil => rfl
  | cons c digits ih =>
    have hcons : Nat.ofDigitChars 10 (c :: digits) n =
        Nat.ofDigitChars 10 digits (n * 10 + digit c) := by
      rw [Nat.ofDigitChars_cons, Nat.mul_comm, digit]
    rw [hcons] at h ⊢
    have hnot : ¬ gatherBound ≤ n * 10 + digit c := by
      have := le_ofDigitChars digits (n * 10 + digit c)
      omega
    have hstep : gatherWhole ⟨n, 0, false⟩ c = ⟨n * 10 + digit c, 0, false⟩ := by
      simp [gatherWhole, hnot]
    rw [List.foldl_cons, hstep, ih _ h]

theorem gather_ofNat {n : Nat} (h : n < gatherBound) : (ofNat n).gather = ⟨n, 0, false⟩ := by
  have hdigits : Nat.ofDigitChars 10 (Nat.toDigits 10 n) 0 = n := Nat.ofDigitChars_ten_toDigits
  have hwhole := foldl_gatherWhole (Nat.toDigits 10 n) 0 (by rw [hdigits]; exact h)
  rw [hdigits] at hwhole
  simp [gather, ofNat, hwhole]

theorem natural?_ofNat {bits n : Nat} (h : n < Nat.pow 2 bits) :
    (ofNat n).natural? bits = some n := by
  have hdigits : Nat.ofDigitChars 10 (Nat.toDigits 10 n) 0 = n := Nat.ofDigitChars_ten_toDigits
  have hlt : n < 2 ^ bits := h
  simp [natural?, ofNat, isWhole, hdigits, hlt]

/-! ## Without rounding -/

theorem scale?_zero (x : ℝ) : scale? (Exact.real x) 0 = some (.real x) := by
  have hone : (OfScientific.ofScientific 1 false (0 : Int).toNat : Exact) = .real 1 := by
    rw [Exact.ofScientific_eq]
    norm_num
  have hmul : Exact.real x * .real 1 = .real x := congrArg Exact.real (mul_one x)
  rw [scale?, if_neg (by decide), if_pos (by decide)]
  dsimp only
  rw [hone, hmul]
  rfl

theorem scaled?_ofNat {n : Nat} (h : n < gatherBound) :
    (ofNat n).scaled? = some (Exact.real n) := by
  rw [scaled?, gather_ofNat h]
  exact congrArg (Option.map fun x => x) (scale?_zero n)

end Numeral

end PulseFit
