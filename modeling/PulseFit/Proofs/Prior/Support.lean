import PulseFit.Proofs.Prior.Constraints
import PulseFit.Proofs.Scalar.Reals

/-!
# Proofs.Prior.Support — where a prior is not zero

The density of a proper distribution is a positive number on the interval of its possible values and
zero outside (`Marginal.IsProper.logAt_cases`); accepted bounds give each quantity such a
distribution on its interval (`Bounds.negInfinity_lt_logAt_iff`).  A sum of logarithms is above the
least value only if all its summands are, so where a prior is not zero no parameter is missing and
none has a density of zero (`of_negInfinity_lt_logAt`).
-/

namespace PulseFit

open Exact (IsPositive)
open Scalar (negInfinity ln)

/-! ## One parameter -/

namespace Marginal

variable {l h : ℝ} {x : Exact} {d : Marginal Exact}

/-- The density of a uniform distribution on its interval. -/
theorem logAt_of_uniform? (hlt : l < h) (hd : uniform? (.real l) (.real h) = some d)
    (hx : .real l ≤ x ∧ x ≤ .real h) : d.logAt x = .real (-Real.log (h - l)) := by
  obtain ⟨-, -, -, rfl⟩ := uniform?_eq_some hd
  rw [logAt, if_pos hx, logDensityOf, Exact.real_sub_real, Exact.ln_real (sub_pos.mpr hlt)]
  rfl

/-- Logarithms lie between those of positive numbers exactly for what lies between the numbers. -/
theorem ln_between_iff (hl : 0 < l) (hlt : l < h) :
    ln (.real l) ≤ ln x ∧ ln x ≤ ln (.real h) ↔ .real l ≤ x ∧ x ≤ .real h := by
  rw [Exact.ln_real hl, Exact.ln_real (hl.trans hlt)]
  cases x with
  | real t =>
    rcases lt_trichotomy t 0 with hneg | rfl | hpos
    · have hln : ln (Exact.real t) = .nan := (if_neg (not_lt_of_gt hneg)).trans (if_neg hneg.ne)
      rw [hln]
      exact iff_of_false (fun h => h.1) fun h => absurd (hl.trans_le h.1) (not_lt_of_gt hneg)
    · rw [Exact.ln_zero]
      exact iff_of_false (fun h => h.1) fun h => absurd (hl.trans_le h.1) (lt_irrefl 0)
    · rw [Exact.ln_real hpos]
      simp only [Exact.real_le_real, Real.log_le_log_iff hl hpos,
        Real.log_le_log_iff hpos (hl.trans hlt)]
  | posInf => exact iff_of_false (fun h => h.2) fun h => h.2
  | negInf => exact iff_of_false (fun h => h.1) fun h => h.1
  | nan => exact iff_of_false (fun h => h.1) fun h => h.1

/-- The density of a log-uniform distribution on its interval. -/
theorem logAt_of_logUniform? (hl : 0 < l) (hlt : l < h)
    (hd : logUniform? (.real l) (.real h) = some d) {t : ℝ} (ht : l ≤ t ∧ t ≤ h) :
    d.logAt (.real t) = .real (-Real.log (Real.log h - Real.log l) - Real.log t) := by
  obtain ⟨-, rfl⟩ := logUniform?_eq_some hd
  have hin : ln (.real l) ≤ ln (Exact.real t) ∧ ln (Exact.real t) ≤ ln (.real h) :=
    (ln_between_iff hl hlt).mpr ht
  have hlength : 0 < Real.log h - Real.log l := sub_pos.mpr (Real.log_lt_log hl hlt)
  have hdensity : logDensityOf (ln (Exact.real h) - ln (.real l)) =
      .real (-Real.log (Real.log h - Real.log l)) := by
    rw [logDensityOf, Exact.ln_real hl, Exact.ln_real (hl.trans hlt), Exact.real_sub_real,
      Exact.ln_real hlength]
    rfl
  simp only [logAt]
  rw [if_pos hin, hdensity, Exact.ln_real (hl.trans_le ht.1), Exact.real_sub_real]

/-- The distributions on intervals of real numbers whose lower end is below the upper. -/
inductive IsProper : Marginal Exact → Prop where
  | uniform {l h : ℝ} {d : Marginal Exact} (hlt : l < h)
      (hd : uniform? (.real l) (.real h) = some d) : IsProper d
  | logUniform {l h : ℝ} {d : Marginal Exact} (hl : 0 < l) (hlt : l < h)
      (hd : logUniform? (.real l) (.real h) = some d) : IsProper d

theorem support_of_uniform? (hd : uniform? (.real l) (.real h) = some d) :
    d.support = (.real l, .real h) := by
  obtain ⟨-, -, -, rfl⟩ := uniform?_eq_some hd
  rfl

theorem support_of_logUniform? (hl : 0 < l) (hlt : l < h)
    (hd : logUniform? (.real l) (.real h) = some d) : d.support = (.real l, .real h) := by
  obtain ⟨-, rfl⟩ := logUniform?_eq_some hd
  have hexp {t : ℝ} (ht : 0 < t) : Scalar.exp (ln (Exact.real t)) = .real t := by
    rw [Exact.ln_real ht]
    exact congrArg Exact.real (Real.exp_log ht)
  rw [support, hexp hl, hexp (hl.trans hlt)]

/-- A value between the ends of the interval of possible values. -/
def Supports (d : Marginal Exact) (x : Exact) : Prop := d.support.1 ≤ x ∧ x ≤ d.support.2

theorem IsProper.exists_support (hd : d.IsProper) :
    ∃ l h : ℝ, d.support = (.real l, .real h) := by
  cases hd with
  | uniform hlt hd => exact ⟨_, _, support_of_uniform? hd⟩
  | logUniform hl hlt hd => exact ⟨_, _, support_of_logUniform? hl hlt hd⟩

theorem supports_real_iff (hsupport : d.support = (.real l, .real h)) {t : ℝ} :
    d.Supports (.real t) ↔ l ≤ t ∧ t ≤ h := by
  rw [Supports, hsupport]
  exact Iff.rfl

theorem exists_real_of_supports (hsupport : d.support = (.real l, .real h)) (hx : d.Supports x) :
    ∃ t, x = .real t := by
  obtain ⟨hlo, hhi⟩ := hx
  rw [hsupport] at hlo hhi
  obtain ⟨t, ht, -⟩ := Exact.exists_real_of_le hlo hhi
  exact ⟨t, ht⟩

/-- A density is a real number on its interval and zero outside. -/
theorem IsProper.logAt_cases (h : d.IsProper) (x : Exact) :
    (d.Supports x ∧ ∃ t : ℝ, d.logAt x = .real t) ∨
      (¬ d.Supports x ∧ d.logAt x = negInfinity) := by
  unfold Supports
  cases h with
  | @uniform l h _ hlt hd =>
    rw [support_of_uniform? hd]
    by_cases hin : .real l ≤ x ∧ x ≤ .real h
    · exact .inl ⟨hin, _, logAt_of_uniform? hlt hd hin⟩
    · obtain ⟨-, -, -, rfl⟩ := uniform?_eq_some hd
      exact .inr ⟨hin, if_neg hin⟩
  | @logUniform l h _ hl hlt hd =>
    rw [support_of_logUniform? hl hlt hd]
    by_cases hin : .real l ≤ x ∧ x ≤ .real h
    · obtain ⟨t, rfl, ht⟩ := Exact.exists_real_of_le hin.1 hin.2
      exact .inl ⟨hin, _, logAt_of_logUniform? hl hlt hd ht⟩
    · obtain ⟨-, rfl⟩ := logUniform?_eq_some hd
      exact .inr ⟨hin, if_neg (mt (ln_between_iff hl hlt).mp hin)⟩

/-- A density is finite exactly on its interval. -/
theorem IsProper.isFinite_logAt_iff (h : d.IsProper) :
    Scalar.isFinite (d.logAt x) = true ↔ d.Supports x := by
  rcases h.logAt_cases x with ⟨hin, t, ht⟩ | ⟨hout, hzero⟩
  · rw [ht]
    exact iff_of_true rfl hin
  · rw [hzero]
    exact iff_of_false nofun hout

/-- A distribution is not zero exactly on its interval. -/
theorem IsProper.negInfinity_lt_iff (h : d.IsProper) : negInfinity < d.logAt x ↔ d.Supports x := by
  rcases h.logAt_cases x with ⟨hin, t, ht⟩ | ⟨hin, hzero⟩
  · rw [ht]
    exact iff_of_true trivial hin
  · rw [hzero]
    exact iff_of_false id hin

/-- A real number or the least value, as logarithms of densities are. -/
def IsLog (x : Exact) : Prop := x = negInfinity ∨ ∃ t : ℝ, x = .real t

theorem IsLog.add {y : Exact} (hx : IsLog x) (hy : IsLog y) : IsLog (x + y) := by
  rcases hx with rfl | ⟨s, rfl⟩ <;> rcases hy with rfl | ⟨t, rfl⟩
  · exact .inl rfl
  · exact .inl rfl
  · exact .inl rfl
  · exact .inr ⟨s + t, rfl⟩

theorem IsProper.isLog_logAt (h : d.IsProper) (x : Exact) : IsLog (d.logAt x) :=
  (h.logAt_cases x).symm.imp And.right And.right

end Marginal

namespace Bounds

variable {b : Bounds Exact} {q : Quantity} {i : Interval Exact} {d : Marginal Exact} {x : Exact}

theorem exists_real_of_admissible {positive : Bool} (hi : i.admissible positive = true) :
    ∃ l h : ℝ, i = ⟨.real l, .real h⟩ ∧ l < h ∧ (positive = true → 0 < l) := by
  obtain ⟨hproper, -⟩ := Bool.and_eq_true_iff.mp hi
  obtain ⟨hlo, hhi, -⟩ := Interval.proper_iff.mp hproper
  obtain ⟨l, hl⟩ := Exact.exists_real_of_isFinite hlo
  obtain ⟨h, hh⟩ := Exact.exists_real_of_isFinite hhi
  obtain rfl : i = ⟨.real l, .real h⟩ := by rw [← hl, ← hh]
  exact ⟨l, h, rfl, Interval.admissible_real_iff.mp hi⟩

/-- The interval of a quantity is one of real numbers, of positive ones if the quantity is
log-uniform. -/
theorem exists_interval (hb : b.validate = .ok ()) (q : Quantity) :
    ∃ l h : ℝ, b.interval q = ⟨.real l, .real h⟩ ∧ l < h ∧ (q ∉ uniformQuantities → 0 < l) := by
  obtain ⟨hsigned, hpositive⟩ := validate_eq_ok_iff.mp hb
  rcases b.quantity_cases q with ⟨i, hi⟩ | ⟨i, hi⟩ | rfl | ⟨p, hp, rfl⟩
  · obtain ⟨hq, rfl⟩ := uniform_of_mem_signed hi
    obtain ⟨l, h, hinterval, hlt, -⟩ := exists_real_of_admissible (hsigned _ hi)
    exact ⟨l, h, hinterval, hlt, fun hnot => absurd hq hnot⟩
  · obtain ⟨-, rfl⟩ := not_uniform_of_mem_positive hi
    obtain ⟨l, h, hinterval, hlt, hl⟩ := exists_real_of_admissible (hpositive _ hi)
    exact ⟨l, h, hinterval, hlt, fun _ => hl rfl⟩
  · have hstart : (.shape .start, b.window) ∈ b.signed := List.mem_cons_self
    obtain ⟨l, h, hinterval, hlt, -⟩ := exists_real_of_admissible (hsigned _ hstart)
    exact ⟨l, h, hinterval, hlt, fun hnot => absurd (by decide) hnot⟩
  · obtain ⟨hq, hinterval⟩ := uniform_of_mem_phases b hp
    have hlt : -Real.pi < Real.pi := by linarith [Real.pi_pos]
    exact ⟨-Real.pi, Real.pi, hinterval, hlt, fun hnot => absurd hq hnot⟩

/-- Accepted bounds give every quantity a uniform distribution on its interval, or a log-uniform one
if the interval holds positive numbers only. -/
theorem marginal_cases (hb : b.validate = .ok ()) (hd : b.marginal? q = some d) :
    ∃ l h : ℝ, b.interval q = ⟨.real l, .real h⟩ ∧ l < h ∧
      ((q ∈ uniformQuantities ∧ Marginal.uniform? (.real l) (.real h) = some d) ∨
        (q ∉ uniformQuantities ∧ 0 < l ∧ Marginal.logUniform? (.real l) (.real h) = some d)) := by
  obtain ⟨l, h, hinterval, hlt, hl⟩ := exists_interval hb q
  rw [marginal?_eq, hinterval] at hd
  refine ⟨l, h, hinterval, hlt, ?_⟩
  by_cases hq : q ∈ uniformQuantities
  · rw [if_pos hq] at hd
    exact .inl ⟨hq, hd⟩
  · rw [if_neg hq] at hd
    exact .inr ⟨hq, hl hq, hd⟩

/-- Accepted bounds give proper distributions. -/
theorem isProper_marginal (hb : b.validate = .ok ()) (hd : b.marginal? q = some d) :
    d.IsProper := by
  obtain ⟨l, h, -, hlt, ⟨-, hd⟩ | ⟨-, hl, hd⟩⟩ := marginal_cases hb hd
  · exact .uniform hlt hd
  · exact .logUniform hl hlt hd

/-- The interval of possible values is that of the quantity. -/
theorem support_marginal (hb : b.validate = .ok ()) (hd : b.marginal? q = some d) :
    d.support = ((b.interval q).lo, (b.interval q).hi) := by
  obtain ⟨l, h, hinterval, hlt, ⟨-, hd⟩ | ⟨-, hl, hd⟩⟩ := marginal_cases hb hd
  · rw [hinterval, Marginal.support_of_uniform? hd]
  · rw [hinterval, Marginal.support_of_logUniform? hl hlt hd]

/-- The density of a quantity is not zero exactly on its interval. -/
theorem negInfinity_lt_logAt_iff (hb : b.validate = .ok ()) (hd : b.marginal? q = some d) :
    negInfinity < d.logAt x ↔ (b.interval q).Contains x := by
  rw [(isProper_marginal hb hd).negInfinity_lt_iff, Marginal.Supports, support_marginal hb hd]
  rfl

/-- The density of a quantity is not zero exactly between its bounds. -/
theorem negInfinity_lt_iff (hb : b.validate = .ok ()) (hq : (q, i) ∈ b.signed ∨ (q, i) ∈ b.positive)
    (hd : b.marginal? q = some d) : negInfinity < d.logAt x ↔ i.lo ≤ x ∧ x ≤ i.hi := by
  obtain rfl : b.interval q = i :=
    hq.elim (fun h => (uniform_of_mem_signed h).2) fun h => (not_uniform_of_mem_positive h).2
  exact negInfinity_lt_logAt_iff hb hd

/-- A uniform quantity is a real number. -/
theorem exists_real_of_mem_signed (hb : b.validate = .ok ()) (hq : (q, i) ∈ b.signed)
    (hd : b.marginal? q = some d) (hx : negInfinity < d.logAt x) : ∃ t : ℝ, x = .real t := by
  obtain ⟨hlo, hhi⟩ := (negInfinity_lt_iff hb (.inl hq) hd).mp hx
  obtain ⟨l, h, rfl, -⟩ := exists_real_of_admissible ((validate_eq_ok_iff.mp hb).1 _ hq)
  obtain ⟨t, ht, -⟩ := Exact.exists_real_of_le hlo hhi
  exact ⟨t, ht⟩

/-- A quantity with positive bounds is positive. -/
theorem isPositive_of_mem_positive (hb : b.validate = .ok ()) (hq : (q, i) ∈ b.positive)
    (hd : b.marginal? q = some d) (hx : negInfinity < d.logAt x) : IsPositive x := by
  obtain ⟨hlo, hhi⟩ := (negInfinity_lt_iff hb (.inr hq) hd).mp hx
  obtain ⟨l, h, rfl, -, hl⟩ := exists_real_of_admissible ((validate_eq_ok_iff.mp hb).2 _ hq)
  obtain ⟨t, rfl, ht, -⟩ := Exact.exists_real_of_le hlo hhi
  exact Exact.isPositive_real ((hl rfl).trans_le ht)

/-- What holds of all bounds and of the interval of phases holds of the intervals of all quantities.
-/
theorem forall_interval {P : Interval Exact → Prop} (hbounds : ∀ x ∈ b.signed ++ b.positive, P x.2)
    (hphases : P ⟨-Scalar.pi, Scalar.pi⟩) (q : Quantity) : P (b.interval q) := by
  rcases b.quantity_cases q with ⟨i, hi⟩ | ⟨i, hi⟩ | rfl | ⟨p, hp, rfl⟩
  · rw [(uniform_of_mem_signed hi).2]
    exact hbounds (q, i) (List.mem_append_left _ hi)
  · rw [(not_uniform_of_mem_positive hi).2]
    exact hbounds (q, i) (List.mem_append_right _ hi)
  · exact hbounds (.shape .start, b.window) List.mem_cons_self
  · rw [(uniform_of_mem_phases b hp).2]
    exact hphases

/-- One is in the usual intervals of all quantities, if the window reaches from zero to ten. -/
theorem one_mem_interval (q : Quantity) : (tenBounds.interval q).Contains (.real 1) := by
  refine forall_interval (P := fun i => i.Contains (.real 1)) ?_ ?_ q
  · simp only [Interval.Contains, tenBounds, signed, positive, delay, width, ofWindow,
      Option.getD_none, List.cons_append, List.nil_append, List.forall_mem_cons,
      Exact.ofScientific_eq, Exact.real_sub_real, Exact.real_le_real]
    norm_num
  · have hlo : -Real.pi ≤ 1 := by linarith [Real.pi_pos]
    have hhi : 1 ≤ Real.pi := by linarith [Real.two_le_pi]
    exact ⟨hlo, hhi⟩

/-- These intervals are within a million to both sides. -/
theorem interval_within (q : Quantity) :
    .real (-1000000) ≤ (tenBounds.interval q).lo ∧ (tenBounds.interval q).hi ≤ .real 1000000 := by
  refine forall_interval (P := fun i => .real (-1000000) ≤ i.lo ∧ i.hi ≤ .real 1000000) ?_ ?_ q
  · simp only [tenBounds, signed, positive, delay, width, ofWindow, Option.getD_none,
      List.cons_append, List.nil_append, List.forall_mem_cons,
      Exact.ofScientific_eq, Exact.real_sub_real, Exact.real_le_real]
    norm_num
  · have hlo : -1000000 ≤ -Real.pi := by linarith [Real.pi_le_four]
    have hhi : Real.pi ≤ 1000000 := by linarith [Real.pi_le_four]
    exact ⟨hlo, hhi⟩

end Bounds

/-! ## All parameters -/

namespace Prior

/-- A sum is above the least value exactly if both its summands are. -/
theorem negInfinity_lt_add_iff {x y : Exact} :
    negInfinity < x + y ↔ negInfinity < x ∧ negInfinity < y := by
  cases x <;> cases y <;>
    first
      | exact iff_of_true trivial ⟨trivial, trivial⟩
      | exact iff_of_false id fun h => h.1
      | exact iff_of_false id fun h => h.2

/-- The sum of the logarithms of all densities is above the least value exactly if all are. -/
theorem negInfinity_lt_logSum_iff {entries : List (Entry Exact)} {values : List Exact} :
    negInfinity < logSum entries values ↔
      ∀ pair ∈ entries.zip values, negInfinity < pair.1.marginal.logAt pair.2 := by
  have hfold (pairs : List (Entry Exact × Exact)) (acc : Exact) :
      negInfinity < pairs.foldl (fun acc (e, x) => acc + e.marginal.logAt x) acc ↔
        negInfinity < acc ∧ ∀ pair ∈ pairs, negInfinity < pair.1.marginal.logAt pair.2 := by
    induction pairs generalizing acc with
    | nil => simp
    | cons pair pairs ih =>
      rw [List.foldl_cons, ih, negInfinity_lt_add_iff, List.forall_mem_cons, and_assoc]
  rw [logSum, hfold, Exact.zero_eq]
  exact and_iff_right trivial

/-- The logarithm of a density is above the least value exactly if the order is kept and no density
is zero. -/
theorem negInfinity_lt_logOfValues_iff {r : Prior Exact} {values : List Exact} :
    negInfinity < r.logOfValues values ↔ r.ordered values = true ∧
      ∀ pair ∈ r.entries.zip values, negInfinity < pair.1.marginal.logAt pair.2 := by
  by_cases hordered : r.ordered values = true
  · rw [logOfValues, if_pos hordered, negInfinity_lt_logSum_iff]
    exact (and_iff_right hordered).symm
  · rw [logOfValues, if_neg hordered]
    exact iff_of_false id fun h => hordered h.1

/-- All distributions are proper. -/
def IsProper (r : Prior Exact) : Prop := ∀ e ∈ r.entries, e.marginal.IsProper

theorem isProper_of_build? {m : Model} {channels : List Channel} {b : Bounds Exact}
    {r : Prior Exact} (hb : b.validate = .ok ()) (hr : build? m channels b = some (.ok r)) :
    r.IsProper :=
  fun _ he => Bounds.isProper_marginal hb (marginal_of_build? hr he)

/-- The logarithm of the density of a proper prior is a real number or the least value. -/
theorem IsProper.isLog_logOfValues {r : Prior Exact} (h : r.IsProper) (values : List Exact) :
    Marginal.IsLog (r.logOfValues values) := by
  have hfold (pairs : List (Entry Exact × Exact)) (hpairs : ∀ pair ∈ pairs, pair.1 ∈ r.entries)
      (acc : Exact) (hacc : Marginal.IsLog acc) :
      Marginal.IsLog (pairs.foldl (fun acc (e, x) => acc + e.marginal.logAt x) acc) := by
    induction pairs generalizing acc with
    | nil => exact hacc
    | cons pair pairs ih =>
      rw [List.forall_mem_cons] at hpairs
      exact ih hpairs.2 _ (hacc.add ((h pair.1 hpairs.1).isLog_logAt pair.2))
  by_cases hordered : r.ordered values = true
  · rw [logOfValues, if_pos hordered]
    exact hfold _ (fun pair hpair => (List.of_mem_zip hpair).1) _ (.inr ⟨0, Exact.zero_eq⟩)
  · rw [logOfValues, if_neg hordered]
    exact .inl rfl

theorem logAt_eq_logOfValues {r : Prior Exact} {p : Assignment Exact} (value : Key → Exact)
    (hp : ∀ e ∈ r.entries, p[e.name]? = some (value e.key)) :
    r.logAt p = .ok (r.logOfValues ((r.entries.map (·.key)).map value)) := by
  rw [logAt, values_eq hp]
  rfl

/-- A prior is not zero exactly where the order is kept and no density is zero. -/
theorem negInfinity_lt_logOfValues_map_iff {r : Prior Exact} (value : Key → Exact) :
    negInfinity < r.logOfValues ((r.entries.map (·.key)).map value) ↔
      r.ordered ((r.entries.map (·.key)).map value) = true ∧
        ∀ e ∈ r.entries, negInfinity < e.marginal.logAt (value e.key) := by
  rw [negInfinity_lt_logOfValues_iff, zip_values]
  simp only [List.forall_mem_map]

theorem exists_logAt {r : Prior Exact} {p : Assignment Exact} (value : Key → Exact)
    (hp : ∀ e ∈ r.entries, p[e.name]? = some (value e.key)) :
    ∃ x, r.logAt p = .ok x ∧ (negInfinity < x ↔
      r.ordered ((r.entries.map (·.key)).map value) = true ∧
        ∀ e ∈ r.entries, negInfinity < e.marginal.logAt (value e.key)) :=
  ⟨_, logAt_eq_logOfValues value hp, negInfinity_lt_logOfValues_map_iff value⟩

/-- Where a prior is not zero, all parameters are there and no density is zero. -/
theorem of_negInfinity_lt_logAt {r : Prior Exact} {p : Assignment Exact} {x : Exact}
    (h : r.logAt p = .ok x) (hx : negInfinity < x) :
    ∀ e ∈ r.entries, p[e.name]? = some (p.getD e.name 0.0) ∧
      negInfinity < e.marginal.logAt (p.getD e.name 0.0) := by
  have hnames : ∀ e ∈ r.entries, p[e.name]? = some (p.getD e.name 0.0) := by
    cases hvalues : r.values p with
    | error error =>
      rw [logAt, hvalues] at h
      cases h
    | ok values =>
      exact fun e he => Std.ExtTreeMap.getElem?_eq_some_getD (mem_of_values_eq_ok hvalues e he)
  obtain ⟨y, hy, hiff⟩ := exists_logAt (fun k => p.getD k.text 0.0) hnames
  obtain rfl : x = y := Except.ok.inj (h.symm.trans hy)
  exact fun e he => ⟨hnames e he, (hiff.mp hx).2 e he⟩

end Prior

end PulseFit
