import PulseFit.Proofs.Likelihood.Rate
import PulseFit.Proofs.Prior.Chains
import PulseFit.Proofs.Prior.Support

/-!
# Proofs.Likelihood.Positive — without residuals a prior keeps the likelihood finite

Where the prior of a model without residuals is not zero, the parameters of all pulses are positive
but for their starts, and a lens magnifies by no negative number (`positiveParameters_of_logAt`).
So background, pulses and images add up to a positive rate in every bin
(`isPositive_superposition`): nothing is clipped, and the logarithm of the likelihood is a real
number.
-/

namespace PulseFit

open Exact (IsPositive isPositive_real)

namespace Model

/-- Without residuals all components are pulses. -/
theorem exists_eq_pulse {m : Model} (h : ∀ x ∈ m.pulses, x.residual = none) {c : Component}
    {i : Nat} (hi : i ∈ m.indices c) : ∃ s, c = .pulse s := by
  cases c with
  | pulse s => exact ⟨s, rfl⟩
  | residual s =>
    obtain ⟨j, x, -, hx, hs⟩ := mem_indices_residual.mp hi
    rw [h x (List.mem_of_getElem? hx)] at hs
    cases hs

/-- Without residuals all shape quantities but starts have positive bounds. -/
theorem exists_mem_positive {m : Model} (h : ∀ x ∈ m.pulses, x.residual = none)
    (b : Bounds Exact) {ch : Channel} {q : ShapeQuantity} {i : Nat}
    (hk : .shape q i ch ∈ m.keys ch) (hne : q ≠ .start) : ∃ j, (.shape q, j) ∈ b.positive := by
  rcases mem_keys.mp hk with ⟨-, hshared⟩ | heq | ⟨c, hc⟩
  · cases hshared
  · cases heq
  · obtain ⟨q', hq, j, hj, heq⟩ := mem_shapeKeys.mp hc
    obtain ⟨rfl, rfl, -⟩ := Key.shape.inj heq
    obtain ⟨s, rfl⟩ := exists_eq_pulse h hj
    cases s <;> cases q <;> simp_all [Component.quantities, PulseShape.quantities, Bounds.positive]

end Model

namespace ChannelLikelihood

/-! ## Positive rates -/

/-- All parameters of pulses and the background are positive, but for starts, which are any times; a
lens delays by any time and does not turn a rate into a negative one. -/
structure PositiveParameters (m : Model) (ch : Channel) (value : Key → Exact) : Prop where
  background : IsPositive (value (.background ch))
  start : ∀ i, .shape .start i ch ∈ m.keys ch → ∃ t : ℝ, value (.shape .start i ch) = .real t
  shape : ∀ q i, .shape q i ch ∈ m.keys ch → q ≠ .start → IsPositive (value (.shape q i ch))
  delay : m.lensed = true → ∃ t : ℝ, value (.lens .timeDelay) = .real t
  magnification : m.lensed = true →
    ∃ t : ℝ, 0 ≤ t ∧ value (.lens .magnificationRatio) = .real t

variable {l : ChannelLikelihood Exact} {value : Key → Exact}

theorem isPositive_of_mem_zipWith {f : Exact → Exact → Exact} {xs ys : Array Exact}
    (hf : ∀ x ∈ xs, ∀ y ∈ ys, IsPositive (f x y)) : ∀ z ∈ xs.zipWith f ys, IsPositive z := by
  intro z hz
  obtain ⟨k, hk, rfl⟩ := Array.mem_iff_getElem.mp hz
  rw [Array.getElem_zipWith]
  exact hf _ (Array.getElem_mem _) _ (Array.getElem_mem _)

/-- A pulse and its image under a lens contribute a positive rate. -/
theorem isPositive_contribution (h : PositiveParameters l.model l.channel value) {times : Array ℝ}
    (htimes : l.times = times.map .real) {s : PulseShape} {i : Nat}
    (hi : i ∈ l.model.indices (.pulse s)) :
    ∀ x ∈ l.contribution value (.pulse s, i), IsPositive x := by
  have hkey {q : ShapeQuantity} (hq : q ∈ s.quantities) :
      .shape q i l.channel ∈ l.model.keys l.channel :=
    Model.shape_mem_keys (c := .pulse s) hq hi
  obtain ⟨start, hstart⟩ :=
    h.start i (hkey (Component.timeQuantity_mem_quantities (.pulse s)))
  have hown : ∀ q ∈ s.quantities, q ≠ .start → IsPositive (l.valueAt value i q) :=
    fun q hq hne => h.shape q i (hkey hq) hne
  have hrate := Rate.isPositive_ofComponent hstart hown times
  unfold contribution
  by_cases hl : l.model.lensed = true
  · obtain ⟨delay, hdelay⟩ := h.delay hl
    obtain ⟨factor, hfactor, hfactorEq⟩ := h.magnification hl
    have hdelayed : Rate.delayed (.pulse s) (value (.lens .timeDelay)) (l.valueAt value i) .start =
        .real (start + delay) := by
      rw [hdelay]
      exact (if_pos rfl).trans (congrArg (· + Exact.real delay) hstart)
    have hother : ∀ q ∈ s.quantities, q ≠ .start → IsPositive
        (Rate.delayed (.pulse s) (value (.lens .timeDelay)) (l.valueAt value i) q) := by
      intro q hq hne
      have hkept : Rate.delayed (.pulse s) (value (.lens .timeDelay)) (l.valueAt value i) q =
          l.valueAt value i q := if_neg hne
      rw [hkept]
      exact hown q hq hne
    have himage := Rate.isPositive_ofComponent hdelayed hother times
    simp only [hl, if_true, htimes]
    refine isPositive_of_mem_zipWith fun x hx y hy => ?_
    obtain ⟨a, ha, rfl⟩ := hrate x hx
    obtain ⟨b, hb, rfl⟩ := himage y hy
    rw [hfactorEq]
    exact isPositive_real (add_pos_of_pos_of_nonneg ha (mul_nonneg hfactor hb.le))
  · simp only [hl, htimes]
    exact hrate

/-- Positive arrays add up to a positive one. -/
theorem isPositive_foldl_zipWith {xss : List (Array Exact)}
    (hxss : ∀ ys ∈ xss, ∀ y ∈ ys, IsPositive y) {xs : Array Exact}
    (hxs : ∀ x ∈ xs, IsPositive x) :
    ∀ x ∈ xss.foldl (·.zipWith (· + ·) ·) xs, IsPositive x := by
  induction xss generalizing xs with
  | nil => exact hxs
  | cons ys xss ih =>
    refine ih (fun zs hzs => hxss zs (List.mem_cons_of_mem _ hzs)) ?_
    exact isPositive_of_mem_zipWith fun x hx y hy =>
      (hxs x hx).add (hxss ys List.mem_cons_self y hy)

/-- Without residuals the superposition is positive in every bin. -/
theorem isPositive_superposition (hresiduals : ∀ x ∈ l.model.pulses, x.residual = none)
    (h : PositiveParameters l.model l.channel value) {times : Array ℝ}
    (htimes : l.times = times.map .real) : ∀ x ∈ l.superposition value, IsPositive x := by
  refine isPositive_foldl_zipWith (fun ys hys => ?_) fun x hx => ?_
  · obtain ⟨⟨c, i⟩, hterm, rfl⟩ := List.mem_map.mp hys
    have hi : i ∈ l.model.indices c := Model.mem_components.mp hterm
    obtain ⟨s, rfl⟩ := Model.exists_eq_pulse hresiduals hi
    exact isPositive_contribution h htimes hi
  · rw [Array.mem_replicate] at hx
    rw [hx.2]
    exact h.background

/-! ## The likelihood of a positive rate -/

/-- The logarithm of the gamma function at the next number after a count. -/
theorem lnGamma_succ {y : ℝ} (hy : 0 ≤ y) :
    Scalar.lnGamma (Exact.real y + 1.0) = .real (Real.log (Real.Gamma (y + 1))) := by
  have hpos : 0 < Real.Gamma (y + 1) := Real.Gamma_pos_of_pos (by linarith)
  have hlog : Scalar.lnGamma (Exact.real y + .real 1) = .real (Real.log |Real.Gamma (y + 1)|) := rfl
  rw [Exact.one_eq, hlog, abs_of_pos hpos]

/-- A bin with a positive rate adds a real number to the log-likelihood. -/
theorem logStep_real {t y : ℝ} (ht : 0 < t) (hy : 0 ≤ y) (acc : ℝ) :
    Exact.real acc - .real t + .real y * Scalar.ln (.real t) - Scalar.lnGamma (.real y + 1.0) =
      .real (acc - t + y * Real.log t - Real.log (Real.Gamma (y + 1))) := by
  rw [Exact.ln_real ht, lnGamma_succ hy, Exact.real_sub_real, Exact.real_mul_real,
    Exact.real_add_real, Exact.real_sub_real]

/-- The log-likelihood of counts under a positive rate is a real number. -/
theorem exists_logSum_real {rate counts : List ℝ} (hrate : ∀ t ∈ rate, 0 < t)
    (hcounts : ∀ y ∈ counts, 0 ≤ y) :
    ∃ v : ℝ, logSum (rate.map Exact.real) (counts.map Exact.real) = .real v := by
  have hfold (acc : ℝ) : ∃ v : ℝ, ((rate.map Exact.real).zip (counts.map Exact.real)).foldl
      (fun acc (r, y) => acc - r + y * Scalar.ln r - Scalar.lnGamma (y + 1.0)) (.real acc) =
        .real v := by
    induction rate generalizing counts acc with
    | nil => exact ⟨acc, rfl⟩
    | cons t rate ih =>
      cases counts with
      | nil => exact ⟨acc, rfl⟩
      | cons y counts =>
        rw [List.map_cons, List.map_cons, List.zip_cons_cons, List.foldl_cons]
        dsimp only
        rw [logStep_real (hrate t List.mem_cons_self) (hcounts y List.mem_cons_self)]
        exact ih (fun u hu => hrate u (List.mem_cons_of_mem _ hu))
          (fun z hz => hcounts z (List.mem_cons_of_mem _ hz)) _
  rw [logSum, Exact.zero_eq]
  exact hfold 0

theorem exists_logOfRate_real {rate counts : Array ℝ} (hrate : ∀ t ∈ rate, 0 < t)
    (hcounts : ∀ y ∈ counts, 0 ≤ y) (hl : l.counts = counts.map .real) :
    ∃ v : ℝ, l.logOfRate (rate.map .real) = .ok (.real v) := by
  have hrateList : ∀ t ∈ rate.toList, 0 < t := fun t ht => hrate t (Array.mem_toList_iff.mp ht)
  have hcountsList : ∀ y ∈ counts.toList, 0 ≤ y :=
    fun y hy => hcounts y (Array.mem_toList_iff.mp hy)
  obtain ⟨v, hv⟩ := exists_logSum_real hrateList hcountsList
  refine ⟨v, ?_⟩
  rw [logOfRate_of_pos, hl, Array.toList_map, Array.toList_map, hv]
  · intro x hx
    obtain ⟨t, ht, rfl⟩ := Array.mem_map.mp hx
    exact ⟨Exact.isFinite_real t, (isPositive_real (hrate t ht)).not_neg⟩
  · intro x hx
    obtain ⟨t, ht, rfl⟩ := Array.mem_map.mp hx
    apply Bool.eq_false_iff.mpr
    intro heq
    have hle : Exact.real t ≤ 0.0 := by
      classical exact (of_decide_eq_true heq).1
    rw [Exact.zero_eq, Exact.real_le_real] at hle
    exact not_lt_of_ge hle (hrate t ht)

/-! ## Where the prior is not zero -/

section

open Scalar (negInfinity)

variable {m : Model} {channels : List Channel} {ch : Channel} {b : Bounds Exact} {r : Prior Exact}
  {p : Assignment Exact} {x : Exact}

/-- Every parameter of a channel is there, and its distribution is not zero. -/
theorem of_mem_keys (hr : Prior.build? m channels b = some (.ok r)) (hch : ch ∈ channels)
    (h : r.logAt p = .ok x) (hx : negInfinity < x) {k : Key} (hk : k ∈ m.keys ch) :
    p[k.text]? = some (p.getD k.text 0.0) ∧
      ∃ d, b.marginal? k.quantity = some d ∧ negInfinity < d.logAt (p.getD k.text 0.0) := by
  have hmem : k ∈ r.entries.map (·.key) := by
    rw [Prior.keys_of_build? hr]
    exact Prior.mem_modelKeys.mpr ⟨ch, hch, hk⟩
  obtain ⟨e, he, rfl⟩ := List.mem_map.mp hmem
  obtain ⟨hget, hlog⟩ := Prior.of_negInfinity_lt_logAt h hx e he
  exact ⟨hget, e.marginal, Prior.marginal_of_build? hr he, hlog⟩

/-- Without residuals the parameters are positive as far as they have to be. -/
theorem positiveParameters_of_logAt (hresiduals : ∀ x ∈ m.pulses, x.residual = none)
    (hb : b.validate = .ok ()) (hmagnification : 0.0 ≤ b.magnificationRatio.lo)
    (hr : Prior.build? m channels b = some (.ok r)) (hch : ch ∈ channels) (h : r.logAt p = .ok x)
    (hx : negInfinity < x) : PositiveParameters m ch fun k => p.getD k.text 0.0 where
  background := by
    obtain ⟨-, d, hd, hlog⟩ := of_mem_keys hr hch h hx (m.background_mem_keys ch)
    have hq : (.background, b.background) ∈ b.positive := List.mem_cons_self
    exact Bounds.isPositive_of_mem_positive hb hq hd hlog
  start i hi := by
    obtain ⟨-, d, hd, hlog⟩ := of_mem_keys hr hch h hx hi
    have hq : (.shape .start, b.window) ∈ b.signed := List.mem_cons_self
    exact Bounds.exists_real_of_mem_signed hb hq hd hlog
  shape q i hi hne := by
    obtain ⟨-, d, hd, hlog⟩ := of_mem_keys hr hch h hx hi
    obtain ⟨interval, hq⟩ := Model.exists_mem_positive hresiduals b hi hne
    exact Bounds.isPositive_of_mem_positive hb hq hd hlog
  delay hl := by
    obtain ⟨-, d, hd, hlog⟩ := of_mem_keys hr hch h hx (k := .lens .timeDelay)
      (Model.mem_keys.mpr (.inl ⟨hl, rfl⟩))
    have hq : (.lens .timeDelay, b.delay) ∈ b.signed := by simp [Bounds.signed]
    exact Bounds.exists_real_of_mem_signed hb hq hd hlog
  magnification hl := by
    obtain ⟨-, d, hd, hlog⟩ := of_mem_keys hr hch h hx (k := .lens .magnificationRatio)
      (Model.mem_keys.mpr (.inl ⟨hl, rfl⟩))
    have hq : (.lens .magnificationRatio, b.magnificationRatio) ∈ b.signed := by
      simp [Bounds.signed]
    obtain ⟨t, ht⟩ := Bounds.exists_real_of_mem_signed hb hq hd hlog
    have hlo := ((Bounds.negInfinity_lt_iff hb (.inl hq) hd).mp hlog).1
    have hnonneg : Exact.real 0 ≤ .real t := by
      rw [← Exact.zero_eq, ← ht]
      exact Exact.le_trans hmagnification hlo
    exact ⟨t, hnonneg, ht⟩

/-- A positive superposition is the rate as it stands, and its log-likelihood is a real number. -/
theorem exists_logAt_real (hresiduals : ∀ x ∈ l.model.pulses, x.residual = none)
    (h : PositiveParameters l.model l.channel value)
    (hp : ∀ k ∈ l.required, p[k.text]? = some (value k)) {times counts : Array ℝ}
    (htimes : l.times = times.map .real) (hl : l.counts = counts.map .real)
    (hcounts : ∀ y ∈ counts, 0 ≤ y) :
    ∃ (sum : Array ℝ) (v : ℝ), sum.size = times.size ∧ (∀ t ∈ sum, 0 < t) ∧
      l.sum p = .ok (sum.map .real) ∧ l.rate p = .ok (sum.map .real) ∧
      l.logAt p = .ok (.real v) := by
  have hpositive := isPositive_superposition hresiduals h htimes
  obtain ⟨sum, hsum, hpos⟩ := Exact.exists_eq_map_real hpositive
  have hsumEq : l.sum p = .ok (sum.map .real) := (sum_eq hp).trans (congrArg Except.ok hsum)
  have hrate : l.rate p = .ok (sum.map .real) := by
    rw [rate, hsumEq]
    refine congrArg Except.ok (clip_of_not_neg fun x hx => ?_)
    rw [← hsum] at hx
    exact (hpositive x hx).not_neg
  have hsize : sum.size = times.size := by
    have hsuperposition := size_superposition l value
    rwa [hsum, Array.size_map, size, htimes, Array.size_map] at hsuperposition
  obtain ⟨v, hv⟩ := exists_logOfRate_real hpos hcounts hl
  refine ⟨sum, v, hsize, hpos, hsumEq, hrate, ?_⟩
  rw [logAt, hrate]
  exact hv

/-- Where a prior of a model without residuals is not zero, under accepted bounds that magnify by no
negative number, the sum of background and components is positive in every bin.  It is not clipped,
and the log-likelihood of counts, which are not negative, is a real number. -/
theorem sum_pos_of_prior (hresiduals : ∀ x ∈ m.pulses, x.residual = none)
    (hch : ch ∈ channels) (hb : b.validate = .ok ())
    (hmagnification : 0.0 ≤ b.magnificationRatio.lo) {times counts : Array ℝ}
    (hsize : counts.size = times.size) (hcounts : ∀ y ∈ counts, 0 ≤ y) :
    ∃ l r, ofCounts (times.map .real) (counts.map .real) m ch = .ok l ∧
      Prior.build? m channels b = some (.ok r) ∧
      ∀ p x, r.logAt p = .ok x → negInfinity < x →
        ∃ (sum : Array ℝ) (v : ℝ), sum.size = times.size ∧ (∀ t ∈ sum, 0 < t) ∧
          l.sum p = .ok (sum.map .real) ∧ l.rate p = .ok (sum.map .real) ∧
          l.logAt p = .ok (.real v) := by
  obtain ⟨r, hr⟩ := Prior.exists_build? hb m channels
  have hsizes : (counts.map Exact.real).size = (times.map Exact.real).size := by
    rw [Array.size_map, Array.size_map, hsize]
  refine ⟨_, r, dif_pos hsizes, hr, fun p x h hx => ?_⟩
  have hpositive := positiveParameters_of_logAt hresiduals hb hmagnification hr hch h hx
  exact exists_logAt_real hresiduals hpositive
    (fun k hk => (of_mem_keys hr hch h hx (mem_required.mp hk)).1) rfl rfl hcounts

/-! ## All parameters one -/

/-- No density is zero at one. -/
theorem negInfinity_lt_logAt_one {q : Quantity} {d : Marginal Exact}
    (hd : tenBounds.marginal? q = some d) : negInfinity < d.logAt 1.0 := by
  rw [Exact.one_eq, Bounds.negInfinity_lt_logAt_iff validate_tenBounds hd]
  exact Bounds.one_mem_interval q

/-- One pulse of every shape under a lens, in the second of two channels, at three times. -/
theorem sum_pos_of_prior_GFXCL :
    ∃ l r p x, ∃ (sum : Array ℝ) (v : ℝ),
      ofCounts (#[0, 1, 2].map .real) (#[3, 0, 5].map .real) ⟨true, [⟨.gaussian, none⟩,
        ⟨.fred, none⟩, ⟨.fredx, none⟩, ⟨.convolution, none⟩], none⟩ .b = .ok l ∧
      Prior.build? ⟨true, [⟨.gaussian, none⟩, ⟨.fred, none⟩, ⟨.fredx, none⟩,
        ⟨.convolution, none⟩], none⟩ [.a, .b] tenBounds = some (.ok r) ∧
      r.logAt p = .ok x ∧ negInfinity < x ∧ sum.size = 3 ∧ (∀ t ∈ sum, 0 < t) ∧
      l.sum p = .ok (sum.map .real) ∧ l.logAt p = .ok (.real v) := by
  have hmagnification : 0.0 ≤ tenBounds.magnificationRatio.lo := by
    simp only [tenBounds, Bounds.ofWindow, Exact.ofScientific_eq, Exact.real_le_real]
    norm_num
  have hch : Channel.b ∈ [Channel.a, .b] := by decide
  have hsize : (#[3, 0, 5] : Array ℝ).size = (#[0, 1, 2] : Array ℝ).size := rfl
  obtain ⟨l, r, hl, hr, hall⟩ := sum_pos_of_prior
    (m := ⟨true, [⟨.gaussian, none⟩, ⟨.fred, none⟩, ⟨.fredx, none⟩, ⟨.convolution, none⟩], none⟩)
    (by decide) hch validate_tenBounds hmagnification hsize (by norm_num)
  obtain ⟨x, hx, hiff⟩ := Prior.exists_logAt (r := r) (fun _ => 1.0)
    (p := .ofPairs ((r.entries.map (·.key)).map fun k => (k.text, 1.0)))
    fun e he => Assignment.getElem?_ofPairs_text _ (List.mem_map_of_mem he)
  have hlt : negInfinity < x := by
    refine hiff.mpr ⟨?_, fun e he => negInfinity_lt_logAt_one (Prior.marginal_of_build? hr he)⟩
    rw [Prior.keys_of_build? hr, Prior.ordered_iff hr]
    intro ch' _ q i j _
    simp only [tenBounds, Bounds.width, Bounds.ofWindow, Exact.one_eq, Exact.zero_eq,
      Exact.real_sub_real, Exact.real_le_real]
    norm_num
  obtain ⟨sum, v, hsize, hpos, hsum, -, hlog⟩ := hall _ x hx hlt
  exact ⟨l, r, _, x, sum, v, hl, hr, hx, hlt, hsize, hpos, hsum, hlog⟩

end

end ChannelLikelihood

end PulseFit
