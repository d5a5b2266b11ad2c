import Mathlib.Order.Monotone.Basic
import PulseFit.Proofs.Scalar.Exact
import PulseFit.Proofs.Single

/-!
# Proofs.Scalar.Nearest — rounding to single precision

The numbers in single precision ascend strictly with their places (`strictMono_ofPlace`).  A number
between two finite ones is rounded to a finite one, and none is nearer (`abs_sub_toSingle_le`).  To
be nearest is enough for rounding never to reverse an order (`le_of_nearest`), however ties are
broken.
-/

namespace PulseFit.Exact

/-! ## Numbers at places -/

theorem ofMagnitude_zero : ofMagnitude 0 = 0 := by
  rw [ofMagnitude, if_pos (by norm_num), Nat.cast_zero, zero_mul]

theorem ofMagnitude_lt_succ (m : ℕ) : ofMagnitude m < ofMagnitude (m + 1) := by
  unfold ofMagnitude
  by_cases hnext : m + 1 < 2 ^ 23
  · rw [if_pos (Nat.lt_of_succ_lt hnext), if_pos hnext]
    exact mul_lt_mul_of_pos_right (Nat.cast_lt.mpr m.lt_succ_self) (by positivity)
  by_cases hlast : m < 2 ^ 23
  · -- the greatest number with the least spacing
    obtain rfl : m = 2 ^ 23 - 1 := by omega
    norm_num
  rw [if_neg hlast, if_neg hnext]
  by_cases hcarry : m % 2 ^ 23 + 1 < 2 ^ 23
  · have hquotient : (m + 1) / 2 ^ 23 = m / 2 ^ 23 := by omega
    have hremainder : (m + 1) % 2 ^ 23 = m % 2 ^ 23 + 1 := by omega
    rw [hquotient, hremainder]
    exact mul_lt_mul_of_pos_right (Nat.cast_lt.mpr (by omega)) (by positivity)
  · -- the fraction is full, so the exponent grows
    have hquotient : (m + 1) / 2 ^ 23 = m / 2 ^ 23 + 1 := by omega
    have hremainder : (m + 1) % 2 ^ 23 = 0 := by omega
    have hexponent : ((m / 2 ^ 23 + 1 : ℕ) - 150 : ℤ) = ((m / 2 ^ 23 : ℕ) - 150 : ℤ) + 1 := by
      rw [Nat.cast_add, Nat.cast_one]
      ring
    rw [hquotient, hremainder, hexponent, zpow_add_one₀ two_ne_zero, mul_comm _ (2 : ℝ),
      ← mul_assoc]
    refine mul_lt_mul_of_pos_right ?_ (by positivity)
    have hfraction : 2 ^ 23 + m % 2 ^ 23 < (2 ^ 23 + 0) * 2 := by omega
    exact_mod_cast hfraction

theorem strictMono_ofMagnitude : StrictMono ofMagnitude :=
  strictMono_nat_of_lt_succ ofMagnitude_lt_succ

/-- With an empty fraction the number is a power of two. -/
theorem ofMagnitude_mul {n : ℕ} (hn : 0 < n) :
    ofMagnitude (n * 2 ^ 23) = 2 ^ ((n : ℤ) - 127) := by
  have hexponent : (n : ℤ) - 127 = 23 + ((n : ℤ) - 150) := by ring
  rw [ofMagnitude, if_neg (by omega), Nat.mul_mod_left, Nat.mul_div_cancel _ (by norm_num),
    hexponent, zpow_add₀ two_ne_zero]
  norm_num

/-- The number at a place. -/
noncomputable def ofPlace (p : ℤ) : ℝ :=
  if p < 0 then -ofMagnitude p.natAbs else ofMagnitude p.natAbs

theorem ofPlace_natCast (m : ℕ) : ofPlace m = ofMagnitude m := if_neg (by omega)

theorem ofPlace_neg (p : ℤ) : ofPlace (-p) = -ofPlace p := by
  unfold ofPlace
  rw [Int.natAbs_neg]
  rcases lt_trichotomy p 0 with hneg | rfl | hpos
  · rw [if_neg (by omega), if_pos hneg, neg_neg]
  · simp [ofMagnitude_zero]
  · rw [if_pos (by omega), if_neg (by omega)]

theorem abs_ofPlace (p : ℤ) : |ofPlace p| = ofMagnitude p.natAbs := by
  have hnonneg : 0 ≤ ofMagnitude p.natAbs :=
    ofMagnitude_zero ▸ strictMono_ofMagnitude.monotone (Nat.zero_le _)
  unfold ofPlace
  split_ifs
  · rw [abs_neg, abs_of_nonneg hnonneg]
  · rw [abs_of_nonneg hnonneg]

theorem ofPlace_lt_succ (p : ℤ) : ofPlace p < ofPlace (p + 1) := by
  cases p with
  | ofNat m =>
    have hsucc : (m : ℤ) + 1 = (m + 1 : ℕ) := (Nat.cast_succ m).symm
    rw [Int.ofNat_eq_natCast, hsucc, ofPlace_natCast, ofPlace_natCast]
    exact ofMagnitude_lt_succ m
  | negSucc m =>
    have hsucc : -((m + 1 : ℕ) : ℤ) + 1 = -(m : ℤ) := by
      rw [Nat.cast_succ, neg_add_rev, neg_add_cancel_comm]
    rw [Int.negSucc_eq, ← Nat.cast_succ, hsucc, ofPlace_neg, ofPlace_neg, ofPlace_natCast,
      ofPlace_natCast]
    exact neg_lt_neg (ofMagnitude_lt_succ m)

theorem strictMono_ofPlace : StrictMono ofPlace := strictMono_int_of_lt_succ ofPlace_lt_succ

/-- A finite number is that at its place. -/
theorem ofSingle_of_isFinite {s : Single} (h : s.isFinite = true) :
    Scalar.ofSingle s = real (ofPlace s.place) := by
  have hinfinite : s.isInfinite = false := by
    simp only [Single.isFinite, Single.isInfinite, decide_eq_true_eq, beq_eq_false_iff_ne] at h ⊢
    omega
  show ofSingle s = _
  rw [ofSingle, Single.isNaN_of_isFinite h, hinfinite, Single.place]
  cases s.negative with
  | true => exact congrArg real ((congrArg Neg.neg (ofPlace_natCast _)).symm.trans
      (ofPlace_neg _).symm)
  | false => exact congrArg real (ofPlace_natCast _).symm

/-- Only finite numbers are real. -/
theorem isFinite_of_ofSingle {s : Single} {x : ℝ} (h : Scalar.ofSingle s = real x) :
    s.isFinite = true := by
  change ofSingle s = real x at h
  unfold ofSingle at h
  split at h
  · cases h
  · next hnan =>
    split at h
    · split at h <;> cases h
    · next hinfinite =>
      rw [Single.isInfinite, beq_iff_eq] at hinfinite
      rw [Single.isNaN, decide_eq_true_eq] at hnan
      rw [Single.isFinite, decide_eq_true_eq]
      omega

/-! ## The nearest number -/

/-- Of the numbers on either side of a real number the nearer one is taken, and no other is nearer.
-/
theorem nearestMagnitude_spec {x : ℝ} (hx : 0 ≤ x)
    (hmax : x ≤ ofMagnitude (Single.infiniteMagnitude - 1)) :
    nearestMagnitude x < Single.infiniteMagnitude ∧
      ∀ k, |x - ofMagnitude (nearestMagnitude x)| ≤ |x - ofMagnitude k| := by
  classical
  let m := Nat.findGreatest (fun m => ofMagnitude m ≤ x) Single.infiniteMagnitude
  have hbelow : ofMagnitude m ≤ x :=
    Nat.findGreatest_spec (P := fun m => ofMagnitude m ≤ x) (Nat.zero_le _)
      (ofMagnitude_zero.trans_le hx)
  have hm : m < Single.infiniteMagnitude := by
    have hle := strictMono_ofMagnitude.le_iff_le.mp (hbelow.trans hmax)
    have hinfinite : Single.infiniteMagnitude = 0x7F800000 := rfl
    omega
  have habove : x < ofMagnitude (m + 1) :=
    lt_of_not_ge (Nat.findGreatest_is_greatest m.lt_succ_self hm)
  have hnear (k : ℕ) : x - ofMagnitude m ≤ |x - ofMagnitude k| ∨
      ofMagnitude (m + 1) - x ≤ |x - ofMagnitude k| := by
    rcases Nat.lt_or_ge m k with hk | hk
    · right
      have hle := strictMono_ofMagnitude.monotone (Nat.succ_le_of_lt hk)
      rw [abs_sub_comm]
      exact (sub_le_sub_right hle x).trans (le_abs_self _)
    · left
      have hle := strictMono_ofMagnitude.monotone hk
      exact (sub_le_sub_left hle x).trans (le_abs_self _)
  have hchoice : nearestMagnitude x =
      if m = Single.infiniteMagnitude ∨ x - ofMagnitude m < ofMagnitude (m + 1) - x ∨
        (x - ofMagnitude m = ofMagnitude (m + 1) - x ∧ m % 2 = 0) then m else m + 1 := rfl
  rw [hchoice]
  split_ifs with htaken
  · have hle : x - ofMagnitude m ≤ ofMagnitude (m + 1) - x := by
      rcases htaken with hinfinite | hlt | ⟨htie, -⟩
      · exact absurd hinfinite hm.ne
      · exact hlt.le
      · exact htie.le
    refine ⟨hm, fun k => ?_⟩
    rw [abs_of_nonneg (sub_nonneg.mpr hbelow)]
    exact (hnear k).elim id hle.trans
  · have hle : ofMagnitude (m + 1) - x ≤ x - ofMagnitude m :=
      not_lt.mp fun hlt => htaken (.inr (.inl hlt))
    refine ⟨?_, fun k => ?_⟩
    · -- the last finite number is below `x` only if it is `x`
      by_contra hlast
      have hnext : m = Single.infiniteMagnitude - 1 := by omega
      rw [← hnext] at hmax
      linarith
    · rw [abs_sub_comm, abs_of_nonneg (sub_nonneg.mpr habove.le)]
      exact (hnear k).elim hle.trans id

/-- A number between two finite ones is rounded to a finite one. -/
theorem place_toSingle {x : ℝ} (hx : |x| ≤ ofMagnitude (Single.infiniteMagnitude - 1)) :
    (Scalar.toSingle (real x)).place =
      if x < 0 then -(nearestMagnitude |x| : ℤ) else nearestMagnitude |x| := by
  have hfinite : nearestMagnitude |x| < 0x7F800000 :=
    (nearestMagnitude_spec (abs_nonneg x) hx).1
  have hbits : (Scalar.toSingle (real x)).bits.toNat =
      nearestMagnitude |x| + if x < 0 then 0x80000000 else 0 := by
    refine UInt32.toNat_ofNat_of_lt' ?_
    rw [UInt32.size]
    split <;> omega
  unfold Single.place Single.negative Single.magnitude
  rw [hbits]
  by_cases hneg : x < 0
  · rw [if_pos hneg, if_pos hneg, if_pos (decide_eq_true (by omega))]
    omega
  · rw [if_neg hneg, if_neg hneg, if_neg (by rw [decide_eq_true_eq]; omega)]
    omega

/-- The numbers between finite ones are rounded to finite ones, and no number is nearer. -/
theorem toSingle_spec {x : ℝ} (hx : |x| ≤ ofMagnitude (Single.infiniteMagnitude - 1)) :
    (Scalar.toSingle (real x)).isFinite = true ∧
      ∀ p : ℤ, |x - ofPlace (Scalar.toSingle (real x)).place| ≤ |x - ofPlace p| := by
  obtain ⟨hfinite, hnearest⟩ := nearestMagnitude_spec (abs_nonneg x) hx
  have hplace := place_toSingle hx
  have hspec (k : ℕ) :
      |x - ofPlace (Scalar.toSingle (real x)).place| ≤ |(|x| - ofMagnitude k)| := by
    refine le_trans (le_of_eq ?_) (hnearest k)
    rw [hplace]
    split_ifs with hneg
    · rw [ofPlace_neg, ofPlace_natCast, abs_of_neg hneg, ← abs_neg]
      congr 1
      ring
    · rw [ofPlace_natCast, abs_of_nonneg (not_lt.mp hneg)]
  refine ⟨?_, fun p => ?_⟩
  · rw [Single.isFinite_iff, hplace]
    split_ifs <;> omega
  · -- a number of the other sign is no nearer than its absolute value
    refine (hspec p.natAbs).trans ?_
    rw [← abs_ofPlace]
    exact abs_abs_sub_abs_le_abs_sub x (ofPlace p)

/-- A number in single precision is its own nearest. -/
theorem toSingle_ofSingle {s : Single} (h : s.isFinite = true) (hzero : s.place ≠ 0) :
    Scalar.toSingle (Scalar.ofSingle s : Exact) = s := by
  have hplace := Single.isFinite_iff.mp h
  have hinfinite : Single.infiniteMagnitude = 0x7F800000 := rfl
  have hbound : |ofPlace s.place| ≤ ofMagnitude (Single.infiniteMagnitude - 1) := by
    rw [abs_ofPlace]
    exact strictMono_ofMagnitude.monotone (by omega)
  have hnearest := (toSingle_spec hbound).2 s.place
  rw [sub_self, abs_zero, abs_nonpos_iff, sub_eq_zero] at hnearest
  rw [ofSingle_of_isFinite h]
  exact (Single.eq_of_place (strictMono_ofPlace.injective hnearest) hzero).symm

/-- What lies between two finite numbers is not above the greatest. -/
theorem abs_le_of_between {x : ℝ} {s t : Single} (hs : s.isFinite = true) (ht : t.isFinite = true)
    (hlo : ofPlace s.place ≤ x) (hhi : x ≤ ofPlace t.place) :
    |x| ≤ ofMagnitude (Single.infiniteMagnitude - 1) := by
  rw [← ofPlace_natCast, abs_le, ← ofPlace_neg]
  rw [Single.isFinite_iff] at hs ht
  have hinfinite : Single.infiniteMagnitude = 0x7F800000 := rfl
  exact ⟨(strictMono_ofPlace.monotone (by omega)).trans hlo,
    hhi.trans (strictMono_ofPlace.monotone (by omega))⟩

/-- Of two numbers each takes the nearer of two places, so they keep their order. -/
theorem le_of_nearest {x y a b : ℝ} (hxy : x < y) (ha : |x - a| ≤ |x - b|)
    (hb : |y - b| ≤ |y - a|) : a ≤ b := by
  rw [← sq_le_sq] at ha hb
  by_contra hlt
  nlinarith

end PulseFit.Exact
