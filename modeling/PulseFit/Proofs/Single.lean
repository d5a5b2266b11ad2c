import PulseFit.Single
import Mathlib.Tactic.SplitIfs

/-!
# Proofs.Single — the order of numbers in single precision

A number has a place among all numbers: its bits without the sign, with the sign.  Places decide the
order, finite places lie between those of the infinities, and neighbours have neighbouring places,
on both sides of zero (`place_next`).
-/

namespace PulseFit.Single

variable {x y z : Single}

theorem lt_iff : lt x y = true ↔ x.isNaN = false ∧ y.isNaN = false ∧ x.place < y.place := by
  simp only [lt, Bool.and_eq_true, Bool.not_eq_true', decide_eq_true_eq, and_assoc]

theorem lt_irrefl (x : Single) : lt x x = false :=
  Bool.eq_false_iff.mpr fun h => Int.lt_irrefl _ (lt_iff.mp h).2.2

theorem lt_trans (hxy : lt x y = true) (hyz : lt y z = true) : lt x z = true := by
  rw [lt_iff] at hxy hyz ⊢
  exact ⟨hxy.1, hyz.2.1, Int.lt_trans hxy.2.2 hyz.2.2⟩

/-- What is not above a number is below all that is above it. -/
theorem lt_of_lt_of_not_lt (hyz : lt y z = true) (hyx : lt y x = false) (hx : x.isNaN = false) :
    lt x z = true := by
  rw [lt_iff] at hyz ⊢
  refine ⟨hx, hyz.2.1, ?_⟩
  have hle : ¬ y.place < x.place := fun hlt => by
    rw [lt_iff.mpr ⟨hyz.1, hx, hlt⟩] at hyx
    cases hyx
  omega

theorem natAbs_place (x : Single) : x.place.natAbs = x.magnitude := by
  unfold place
  split
  · rw [Int.natAbs_neg, Int.natAbs_natCast]
  · rw [Int.natAbs_natCast]

theorem isNaN_of_isFinite (h : x.isFinite = true) : x.isNaN = false := by
  simp only [isFinite, isNaN, decide_eq_true_eq, decide_eq_false_iff_not] at h ⊢
  omega

/-- A finite number lies between the infinities. -/
theorem isFinite_iff : x.isFinite = true ↔
    -(infiniteMagnitude : Int) < x.place ∧ x.place < infiniteMagnitude := by
  rw [isFinite, decide_eq_true_eq, ← natAbs_place]
  omega

theorem negInfinity_lt_of_isFinite (h : x.isFinite = true) : lt negInfinity x = true :=
  lt_iff.mpr ⟨by decide, isNaN_of_isFinite h, (isFinite_iff.mp h).1⟩

theorem place_of_bits {b : Nat} (hb : x.bits.toNat = b) :
    x.place =
      if 0x80000000 ≤ b then -((b % 0x80000000 : Nat) : Int) else (b % 0x80000000 : Nat) := by
  subst hb
  unfold place negative magnitude
  simp only [decide_eq_true_eq]

/-- Only zero has two spellings. -/
theorem eq_of_place (hxy : x.place = y.place) (h : x.place ≠ 0) : x = y := by
  have hx := place_of_bits (x := x) rfl
  have hy := place_of_bits (x := y) rfl
  have hx' := x.bits.toNat_lt
  have hy' := y.bits.toNat_lt
  have hbits : x.bits.toNat = y.bits.toNat := by
    split_ifs at hx hy <;> omega
  exact congrArg mk (UInt32.toNat_inj.mp hbits)

/-- The neighbour of a finite number is one place up or down. -/
theorem place_next (h : x.isFinite = true) (up : Bool) :
    (x.next up).place = if up then x.place + 1 else x.place - 1 := by
  have hmagnitude : x.bits.toNat % 0x80000000 < 0x7F800000 := of_decide_eq_true h
  have hbits := x.bits.toNat_lt
  have hplace := place_of_bits (x := x) rfl
  by_cases hzero : x.magnitude = 0
  · have hx : x.place = 0 := by rw [← Int.natAbs_eq_zero, natAbs_place, hzero]
    rw [next, if_pos hzero, hx]
    cases up <;> rfl
  have hpositive : lt ⟨0⟩ x = decide (0 < x.place) := by
    rw [Bool.eq_iff_iff, lt_iff, decide_eq_true_eq]
    exact ⟨fun hlt => hlt.2.2, fun hlt => ⟨rfl, isNaN_of_isFinite h, hlt⟩⟩
  have hmagnitude' : x.magnitude = x.bits.toNat % 0x80000000 := rfl
  have hsucc : (x.bits + 1).toNat = (x.bits.toNat + 1) % 0x100000000 := UInt32.toNat_add ..
  have hpred : (x.bits - 1).toNat = (0x100000000 - 1 + x.bits.toNat) % 0x100000000 :=
    UInt32.toNat_sub ..
  rw [next, if_neg hzero, hpositive]
  have hup : place ⟨x.bits + 1⟩ = if 0 < x.place then x.place + 1 else x.place - 1 := by
    rw [place_of_bits hsucc]
    split_ifs at * <;> omega
  have hdown : place ⟨x.bits - 1⟩ = if 0 < x.place then x.place - 1 else x.place + 1 := by
    rw [place_of_bits hpred]
    split_ifs at * <;> omega
  by_cases hpos : 0 < x.place
  · rw [if_pos hpos] at hup hdown
    rw [decide_eq_true hpos]
    cases up with
    | true => exact hup
    | false => exact hdown
  · rw [if_neg hpos] at hup hdown
    rw [decide_eq_false hpos]
    cases up with
    | true => exact hdown
    | false => exact hup

end PulseFit.Single
