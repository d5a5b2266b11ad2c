import PulseFit.Prior.Bounds
import PulseFit.Proofs.Scalar.Exact

/-!
# Proofs.Prior.Bounds — accepted bounds give every quantity a distribution

A proper interval has a uniform distribution, a proper interval of positive numbers a log-uniform
one.  `validate` accepts bounds exactly if all intervals are of the kind that their quantity needs
(`validate_eq_ok_iff`), and then no quantity is left without a distribution
(`exists_marginal`).  Which quantities are uniform and on which interval each one lies stands in two
tables, and `marginal?_eq` says that the distributions follow them.
-/

namespace PulseFit

open Scalar (isFinite isNaN ln LawfulOrder LawfulLog)

variable {α : Type} [Scalar α]

namespace Interval

theorem proper_iff {i : Interval α} :
    i.proper = true ↔ isFinite i.lo = true ∧ isFinite i.hi = true ∧ i.lo < i.hi := by
  rw [proper, Bool.and_eq_true, Bool.and_eq_true, decide_eq_true_eq, and_assoc]

theorem admissible_iff {positive : Bool} {i : Interval α} :
    i.admissible positive = true ↔ i.proper = true ∧ (positive = true → ¬ i.lo ≤ 0.0) := by
  cases positive <;> simp [admissible]

theorem admissible_true_iff {i : Interval α} :
    i.admissible true = true ↔ i.proper = true ∧ ¬ i.lo ≤ 0.0 :=
  admissible_iff.trans (and_congr_right fun _ => imp_iff_right rfl)

theorem admissible_false_iff {i : Interval α} : i.admissible false = true ↔ i.proper = true :=
  admissible_iff.trans (and_iff_left nofun)

/-- A value between the bounds. -/
def Contains (i : Interval α) (x : α) : Prop := i.lo ≤ x ∧ x ≤ i.hi

end Interval

namespace Marginal

theorem uniform?_eq_some {x y : α} {d : Marginal α} (h : uniform? x y = some d) :
    isNaN x = false ∧ isNaN y = false ∧ isNaN (logDensityOf (y - x)) = false ∧
      d = .uniform x y (logDensityOf (y - x)) := by
  unfold uniform? at h
  by_cases hnan : (isNaN x || isNaN y || isNaN (logDensityOf (y - x))) = true
  · simp [hnan] at h
  · simp only [hnan] at h
    simp only [Bool.or_eq_true, not_or, Bool.not_eq_true] at hnan
    exact ⟨hnan.1.1, hnan.1.2, hnan.2, (Option.some.inj h).symm⟩

theorem logUniform?_eq_some {x y : α} {d : Marginal α} (h : logUniform? x y = some d) :
    x < y ∧ d = .logUniform (ln x) (ln y) (logDensityOf (ln y - ln x)) := by
  unfold logUniform? at h
  dsimp only at h
  split at h
  · next hcond =>
    simp only [Bool.and_eq_true, decide_eq_true_eq] at hcond
    exact ⟨hcond.1.1.1, (Option.some.inj h).symm⟩
  · cases h

/-- A distribution whose log-density is the negated logarithm of a length has one, if the length is
not negative. -/
theorem isNaN_logDensityOf [LawfulOrder α] [LawfulLog α] {x y : α} (hx : isFinite x = true)
    (hy : isFinite y = true) (hxy : x ≤ y) : isNaN (logDensityOf (y - x)) = false := by
  have hlength : (0.0 : α) ≤ y - x := LawfulOrder.sub_nonneg hx hy hxy
  rw [logDensityOf, LawfulOrder.isNaN_neg]
  exact LawfulLog.isNaN_ln hlength

theorem exists_uniform [LawfulOrder α] [LawfulLog α] {x y : α} (hx : isFinite x = true)
    (hy : isFinite y = true) (hxy : x ≤ y) : ∃ d, uniform? x y = some d := by
  have hd := isNaN_logDensityOf hx hy hxy
  refine ⟨.uniform x y (logDensityOf (y - x)), ?_⟩
  simp [uniform?, hd, LawfulOrder.isNaN_of_isFinite hx, LawfulOrder.isNaN_of_isFinite hy]

theorem exists_logUniform [LawfulOrder α] [LawfulLog α] {x y : α} (hx : isFinite x = true)
    (hy : isFinite y = true) (hpos : 0.0 < x) (hxy : x < y) : ∃ d, logUniform? x y = some d := by
  have hlnx : isFinite (ln x) = true := LawfulLog.isFinite_ln hx hpos
  have hlny : isFinite (ln y) = true := LawfulLog.isFinite_ln hy (LawfulOrder.lt_trans hpos hxy)
  have hln : ln x ≤ ln y := LawfulLog.ln_le_ln hpos hy (LawfulOrder.le_of_lt hxy)
  have hd := isNaN_logDensityOf hlnx hlny hln
  refine ⟨.logUniform (ln x) (ln y) (logDensityOf (ln y - ln x)), ?_⟩
  simp [logUniform?, hxy, hd, LawfulOrder.isNaN_of_isFinite hlnx,
    LawfulOrder.isNaN_of_isFinite hlny]

end Marginal

namespace Interval

variable [LawfulOrder α] [LawfulLog α] {i : Interval α}

theorem exists_uniform (h : i.admissible false = true) :
    ∃ d, Marginal.uniform? i.lo i.hi = some d := by
  obtain ⟨hlo, hhi, hlt⟩ := proper_iff.mp (admissible_false_iff.mp h)
  exact Marginal.exists_uniform hlo hhi (LawfulOrder.le_of_lt hlt)

theorem exists_logUniform (h : i.admissible true = true) :
    ∃ d, Marginal.logUniform? i.lo i.hi = some d := by
  obtain ⟨hproper, hpos⟩ := admissible_true_iff.mp h
  obtain ⟨hlo, hhi, hlt⟩ := proper_iff.mp hproper
  have hpos : (0.0 : α) < i.lo := LawfulOrder.lt_of_not_le hlo LawfulOrder.isFinite_zero hpos
  exact Marginal.exists_logUniform hlo hhi hpos hlt

end Interval

namespace Bounds

/-- Bounds are accepted exactly if every interval is admissible. -/
theorem validate_eq_ok_iff {b : Bounds α} :
    b.validate = .ok () ↔
      (∀ x ∈ b.signed, x.2.admissible false = true) ∧
        ∀ x ∈ b.positive, x.2.admissible true = true := by
  have hviolation : b.violation? = none ↔
      (∀ x ∈ b.signed, x.2.admissible false = true) ∧
        ∀ x ∈ b.positive, x.2.admissible true = true := by
    simp [violation?, List.find?_eq_none]
  rw [← hviolation, validate]
  cases b.violation? with
  | none => simp
  | some x => simp

/-- The quantities that are uniform; the logarithms of all others are. -/
def uniformQuantities : List Quantity :=
  [.lens .timeDelay, .lens .magnificationRatio, .shape .start, .shape .residualBegin,
    .shape .sinePhi, .shape .besselDelta]

/-- The interval of a quantity: its bounds, the window for residuals as well, and a full turn for
phases. -/
def interval (b : Bounds α) : Quantity → Interval α
  | .lens .timeDelay => b.delay
  | .lens .magnificationRatio => b.magnificationRatio
  | .background => b.background
  | .shape .start => b.window
  | .shape .residualBegin => b.window
  | .shape .sinePhi => ⟨-Scalar.pi, Scalar.pi⟩
  | .shape .besselDelta => ⟨-Scalar.pi, Scalar.pi⟩
  | .shape .scale => b.scale
  | .shape .sigma => b.sigma
  | .shape .tau => b.tau
  | .shape .xi => b.xi
  | .shape .gamma => b.gamma
  | .shape .nu => b.nu
  | .shape .sineAmplitude => b.sineAmplitude
  | .shape .sineLambda => b.sineLambda
  | .shape .sineOmega => b.sineOmega
  | .shape .besselAmplitude => b.besselAmplitude
  | .shape .besselOmega => b.besselOmega
  | .shape .besselS => b.besselS

/-- Every quantity, or its logarithm, is uniform on its interval. -/
theorem marginal?_eq (b : Bounds α) (q : Quantity) :
    b.marginal? q =
      if q ∈ uniformQuantities then Marginal.uniform? (b.interval q).lo (b.interval q).hi
      else Marginal.logUniform? (b.interval q).lo (b.interval q).hi := by
  rcases q with q | _ | q
  · cases q <;> rfl
  · rfl
  · cases q <;> rfl

/-- Quantities with bounds of any sign are uniform between them. -/
theorem uniform_of_mem_signed {b : Bounds α} {q : Quantity} {i : Interval α}
    (h : (q, i) ∈ b.signed) : q ∈ uniformQuantities ∧ b.interval q = i := by
  simp only [signed, List.mem_cons, Prod.mk.injEq, List.not_mem_nil, or_false] at h
  rcases h with ⟨rfl, rfl⟩ | ⟨rfl, rfl⟩ | ⟨rfl, rfl⟩ <;> exact ⟨by decide, rfl⟩

/-- Quantities with positive bounds are not, but their logarithms are. -/
theorem not_uniform_of_mem_positive {b : Bounds α} {q : Quantity} {i : Interval α}
    (h : (q, i) ∈ b.positive) : q ∉ uniformQuantities ∧ b.interval q = i := by
  simp only [positive, List.mem_cons, Prod.mk.injEq, List.not_mem_nil, or_false] at h
  rcases h with ⟨rfl, rfl⟩ | ⟨rfl, rfl⟩ | ⟨rfl, rfl⟩ | ⟨rfl, rfl⟩ | ⟨rfl, rfl⟩ | ⟨rfl, rfl⟩ |
    ⟨rfl, rfl⟩ | ⟨rfl, rfl⟩ | ⟨rfl, rfl⟩ | ⟨rfl, rfl⟩ | ⟨rfl, rfl⟩ | ⟨rfl, rfl⟩ | ⟨rfl, rfl⟩ <;>
    exact ⟨by decide, rfl⟩

theorem marginal?_of_mem_signed {b : Bounds α} {q : Quantity} {i : Interval α}
    (h : (q, i) ∈ b.signed) : b.marginal? q = Marginal.uniform? i.lo i.hi := by
  obtain ⟨hq, rfl⟩ := uniform_of_mem_signed h
  rw [marginal?_eq, if_pos hq]

theorem marginal?_of_mem_positive {b : Bounds α} {q : Quantity} {i : Interval α}
    (h : (q, i) ∈ b.positive) : b.marginal? q = Marginal.logUniform? i.lo i.hi := by
  obtain ⟨hq, rfl⟩ := not_uniform_of_mem_positive h
  rw [marginal?_eq, if_neg hq]

/-- A residual begins in the window of the pulses. -/
theorem marginal?_residualBegin (b : Bounds α) :
    b.marginal? (.shape .residualBegin) = b.marginal? (.shape .start) := rfl

/-- The quantities that are a phase; their bounds are fixed. -/
def phases : List ShapeQuantity := [.sinePhi, .besselDelta]

theorem uniform_of_mem_phases (b : Bounds α) {q : ShapeQuantity} (h : q ∈ phases) :
    .shape q ∈ uniformQuantities ∧ b.interval (.shape q) = ⟨-Scalar.pi, Scalar.pi⟩ := by
  simp only [phases, List.mem_cons, List.not_mem_nil, or_false] at h
  rcases h with rfl | rfl <;> exact ⟨by decide, rfl⟩

theorem marginal?_of_mem_phases (b : Bounds α) {q : ShapeQuantity} (h : q ∈ phases) :
    b.marginal? (.shape q) = Marginal.uniform? (-Scalar.pi) Scalar.pi := by
  obtain ⟨hq, hinterval⟩ := uniform_of_mem_phases b h
  rw [marginal?_eq, if_pos hq, hinterval]

/-- Every quantity has bounds of its own, except that residuals share the window and that phases
need none. -/
theorem quantity_cases (b : Bounds α) (q : Quantity) :
    (∃ i, (q, i) ∈ b.signed) ∨ (∃ i, (q, i) ∈ b.positive) ∨ q = .shape .residualBegin ∨
      ∃ p ∈ phases, q = .shape p := by
  rcases q with q | _ | q
  · cases q <;> simp [signed]
  · simp [positive]
  · cases q <;> simp [signed, positive, phases]

section Accepted

variable [LawfulOrder α] [LawfulLog α] {b : Bounds α}

theorem exists_marginal_of_mem_signed (h : b.validate = .ok ()) {q : Quantity} {i : Interval α}
    (hq : (q, i) ∈ b.signed) : ∃ d, b.marginal? q = some d := by
  rw [marginal?_of_mem_signed hq]
  exact Interval.exists_uniform ((validate_eq_ok_iff.mp h).1 (q, i) hq)

/-- Accepted bounds give every quantity a distribution. -/
theorem exists_marginal (h : b.validate = .ok ()) (q : Quantity) :
    ∃ d, b.marginal? q = some d := by
  rcases b.quantity_cases q with ⟨i, hi⟩ | ⟨i, hi⟩ | rfl | ⟨p, hp, rfl⟩
  · exact exists_marginal_of_mem_signed h hi
  · rw [marginal?_of_mem_positive hi]
    exact Interval.exists_logUniform ((validate_eq_ok_iff.mp h).2 (q, i) hi)
  · have hstart : (.shape .start, b.window) ∈ b.signed := List.mem_cons_self
    rw [marginal?_residualBegin]
    exact exists_marginal_of_mem_signed h hstart
  · rw [marginal?_of_mem_phases b hp]
    exact Marginal.exists_uniform LawfulOrder.isFinite_neg_pi LawfulOrder.isFinite_pi
      LawfulOrder.neg_pi_le_pi

end Accepted

end Bounds

/-! ## The usual bounds -/

open Exact

theorem Interval.admissible_real_iff {positive : Bool} {x y : ℝ} :
    (⟨real x, real y⟩ : Interval Exact).admissible positive = true ↔
      x < y ∧ (positive = true → 0 < x) := by
  have hproper : (⟨real x, real y⟩ : Interval Exact).proper = true ↔ x < y := by
    rw [proper_iff]
    simp
  cases positive with
  | false =>
    rw [admissible_false_iff, hproper]
    simp
  | true =>
    rw [admissible_true_iff, hproper]
    simp

/-- The usual bounds are accepted for every window. -/
theorem Bounds.validate_ofWindow {x y : ℝ} (h : x < y) :
    (ofWindow ⟨real x, real y⟩).validate = .ok () := by
  rw [validate_eq_ok_iff]
  simp only [signed, positive, delay, width, ofWindow, Option.getD_none, List.forall_mem_cons,
    real_sub_real, ofScientific_eq, Interval.admissible_real_iff]
  norm_num [h]

/-- The usual bounds of a window from zero to ten. -/
noncomputable def tenBounds : Bounds Exact := .ofWindow ⟨.real 0, .real (10 : ℕ)⟩

theorem validate_tenBounds : tenBounds.validate = .ok () := Bounds.validate_ofWindow (by norm_num)

end PulseFit
