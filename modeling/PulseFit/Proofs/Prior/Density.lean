import PulseFit.Proofs.Prior.Attempts
import PulseFit.Proofs.Prior.Reordering

/-!
# Proofs.Prior.Density — the value of a prior

Without rounding, the logarithm of a prior is a sum over the parameters: a uniform parameter
contributes the negated logarithm of the length of its interval, a log-uniform one that of the
length of the logarithms, less the logarithm of its value.  The prior is not zero exactly if all
parameters are in their intervals and the times in each channel ascend with the pulse numbers
(`logAt_eq_sum`).  Only neighbours are compared, but the order is transitive; and the largest step
that is allowed is as wide as the window, so no times in the window are further apart.
-/

namespace PulseFit

open Scalar (negInfinity)

/-! ## Densities -/

namespace Bounds

variable {b : Bounds Exact} {q : Quantity} {d : Marginal Exact}

/-- The logarithm of the density of a quantity at a number in its interval. -/
noncomputable def logDensityAt (b : Bounds Exact) (q : Quantity) (t : ℝ) : ℝ :=
  let lo := (b.interval q).lo.toReal
  let hi := (b.interval q).hi.toReal
  if q ∈ uniformQuantities then -Real.log (hi - lo)
  else -Real.log (Real.log hi - Real.log lo) - Real.log t

theorem logAt_eq_logDensityAt (hb : b.validate = .ok ()) (hd : b.marginal? q = some d) {x : Exact}
    (hx : (b.interval q).Contains x) :
    d.logAt x = .real (b.logDensityAt q x.toReal) := by
  obtain ⟨l, h, hinterval, hlt, hcases⟩ := marginal_cases hb hd
  unfold Interval.Contains at hx
  rw [hinterval] at hx
  unfold logDensityAt
  rw [hinterval]
  rcases hcases with ⟨hq, hd⟩ | ⟨hq, hl, hd⟩
  · rw [if_pos hq]
    exact Marginal.logAt_of_uniform? hlt hd hx
  · rw [if_neg hq]
    obtain ⟨t, rfl, ht⟩ := Exact.exists_real_of_le hx.1 hx.2
    exact Marginal.logAt_of_logUniform? hl hlt hd ht

end Bounds

namespace Prior

variable {m : Model} {channels : List Channel} {b : Bounds Exact} {r : Prior Exact}
  {value : Key → Exact}

/-! ## Orders -/

/-- Times ascend exactly if each is not before that of the previous pulse. -/
theorem ascending_iff_pairs {xs : List Nat} (hxs : xs.Pairwise (· < ·)) {time : Nat → Exact} :
    Ascending xs time ↔ ∀ i j, (i, j) ∈ Chain.pairs xs → time i ≤ time j := by
  constructor
  · intro h i j hpair
    obtain ⟨k, hi, hj⟩ := Chain.mem_pairs.mp hpair
    exact h i (List.mem_of_getElem? hi) j (List.mem_of_getElem? hj)
      (Chain.rel_of_mem_pairs hxs hpair)
  · intro h i hi j hj hij
    have : Trans (fun i j => time i ≤ time j) (fun i j => time i ≤ time j)
        fun i j => time i ≤ time j := ⟨Exact.le_trans⟩
    have hpairwise : xs.Pairwise fun i j => time i ≤ time j := Chain.pairwise_iff_pairs.mpr h
    obtain ⟨k, l, hk, hl, hkl, rfl, rfl⟩ := exists_getElem_of_lt hxs hi hj hij
    exact List.pairwise_iff_getElem.mp hpairwise k l hk hl hkl

/-- Values in the intervals of all parameters, with times that ascend in every channel. -/
structure Feasible (m : Model) (channels : List Channel) (b : Bounds Exact)
    (value : Key → Exact) : Prop where
  within : ∀ ch ∈ channels, ∀ k ∈ m.keys ch, (b.interval k.quantity).Contains (value k)
  starts : ∀ ch ∈ channels, Ascending (List.range' 1 m.size) fun i => value (.shape .start i ch)
  residuals : ∀ ch ∈ channels,
    Ascending m.residualChain fun i => value (.shape .residualBegin i ch)

/-- For times in the window, the order of the chains is that of the pulse numbers. -/
theorem ordered_iff_ascending (hr : build? m channels b = some (.ok r)) (hb : b.validate = .ok ())
    (hwithin : ∀ ch ∈ channels, ∀ k ∈ m.keys ch, (b.interval k.quantity).Contains (value k)) :
    r.ordered ((modelKeys m channels).map value) = true ↔ ∀ ch ∈ channels, ∀ q,
      Ascending (m.orderedPulses q) fun i => value (.shape q i ch) := by
  obtain ⟨lo, hi, hlt, hwindow⟩ := exists_window hb
  have htime {ch : Channel} (hch : ch ∈ channels) {q : ShapeQuantity} {i : Nat}
      (hpulse : i ∈ m.orderedPulses q) : InWindow lo hi (value (.shape q i ch)) := by
    have hinterval : b.interval (.shape q) = ⟨.real lo, .real hi⟩ := by
      rcases Model.eq_of_mem_orderedPulses hpulse with rfl | rfl
      · exact hwindow
      · exact hwindow
    obtain ⟨hlo, hhi⟩ := hwithin ch hch _ (Model.mem_keys_of_mem_orderedPulses hpulse)
    rw [Key.quantity, hinterval] at hlo hhi
    obtain ⟨t, ht, hlo, hhi⟩ := Exact.exists_real_of_le hlo hhi
    exact ⟨t, hlo, hhi, ht⟩
  rw [ordered_iff hr]
  refine forall₂_congr fun ch hch => forall_congr' fun q => ?_
  rw [ascending_iff_pairs (m.pairwise_orderedPulses q)]
  refine forall₂_congr fun i j => forall_congr' fun hpair => ?_
  obtain ⟨k, hfirst, hsecond⟩ := Chain.mem_pairs.mp hpair
  rw [Bounds.width, hwindow]
  exact step_iff_of_inWindow (htime hch (List.mem_of_getElem? hfirst))
    (htime hch (List.mem_of_getElem? hsecond))

/-! ## The prior -/

/-- The prior is not zero exactly for feasible values. -/
theorem negInfinity_lt_iff_feasible (hr : build? m channels b = some (.ok r))
    (hb : b.validate = .ok ()) :
    negInfinity < r.logOfValues ((modelKeys m channels).map value) ↔
      Feasible m channels b value := by
  have hwithin : (∀ e ∈ r.entries, negInfinity < e.marginal.logAt (value e.key)) ↔
      ∀ ch ∈ channels, ∀ k ∈ m.keys ch, (b.interval k.quantity).Contains (value k) := by
    rw [← forall_mem_modelKeys, ← keys_of_build? hr, List.forall_mem_map]
    exact forall₂_congr fun e he => Bounds.negInfinity_lt_logAt_iff hb (marginal_of_build? hr he)
  rw [← keys_of_build? hr, negInfinity_lt_logOfValues_map_iff, hwithin, keys_of_build? hr]
  constructor
  · rintro ⟨hordered, h⟩
    have hascending := (ordered_iff_ascending hr hb h).mp hordered
    exact ⟨h, fun ch hch => hascending ch hch .start,
      fun ch hch => hascending ch hch .residualBegin⟩
  · intro h
    refine ⟨(ordered_iff_ascending hr hb h.within).mpr fun ch hch q => ?_, h.within⟩
    by_cases hq : q = .start ∨ q = .residualBegin
    · rcases hq with rfl | rfl
      · exact h.starts ch hch
      · exact h.residuals ch hch
    · intro i hi
      exact absurd (Model.eq_of_mem_orderedPulses hi) hq

/-- For feasible values the logarithm of the prior is the sum of those of the densities. -/
theorem logSum_of_feasible (hr : build? m channels b = some (.ok r)) (hb : b.validate = .ok ())
    (hchannels : channels.Nodup) (h : Feasible m channels b value) :
    logSum r.entries ((modelKeys m channels).map value) =
      .real (∑ k ∈ (channels.flatMap m.keys).toFinset,
        b.logDensityAt k.quantity (value k).toReal) := by
  have hkeys : (channels.flatMap m.keys).toFinset = (modelKeys m channels).toFinset := by
    ext k
    rw [List.mem_toFinset, List.mem_toFinset, mem_modelKeys, List.mem_flatMap]
  have hdensity : ∀ k ∈ modelKeys m channels,
      logDensity b k.quantity (value k) = .real (b.logDensityAt k.quantity (value k).toReal) := by
    rw [forall_mem_modelKeys]
    intro ch hch k hk
    obtain ⟨d, hd⟩ := Bounds.exists_marginal hb k.quantity
    rw [logDensity, hd]
    exact Bounds.logAt_eq_logDensityAt hb hd (h.within ch hch k hk)
  rw [logSum_of_build? hr, hkeys, List.sum_toFinset _ (nodup_modelKeys hchannels)]
  calc (modelKeys m channels).foldl (fun sum k => sum + logDensity b k.quantity (value k)) 0.0
      = (modelKeys m channels).foldl
          (fun sum k => sum + .real (b.logDensityAt k.quantity (value k).toReal)) (.real 0) := by
        rw [Exact.zero_eq]
        exact List.foldl_ext _ _ _ fun sum k hk => congrArg (sum + ·) (hdensity k hk)
    _ = .real (0 + ((modelKeys m channels).map fun k =>
          b.logDensityAt k.quantity (value k).toReal).sum) :=
        Scalar.ExactReals.foldl_add _ (modelKeys m channels) 0
    _ = _ := by rw [zero_add]

/-- The logarithm of a prior over different channels, at an assignment of all parameters.  It is
above the least value exactly if all parameters are in their intervals, the starts of each channel
do not decrease with the pulse number, nor do its residuals along the pulses that have one.  Then it
is the sum of the logarithms of the densities of all parameters, those of the lens counted once;
otherwise it is the least value. -/
theorem logAt_eq_sum (m : Model) (hchannels : channels.Nodup) (hb : b.validate = .ok ()) :
    ∃ r, build? m channels b = some (.ok r) ∧ ∀ (p : Assignment Exact) (value : Key → Exact),
      (∀ ch ∈ channels, ∀ k ∈ m.keys ch, p[k.text]? = some (value k)) →
      ∃ x, r.logAt p = .ok x ∧ (negInfinity < x ↔ Feasible m channels b value) ∧
        (Feasible m channels b value → x = .real (∑ k ∈ (channels.flatMap m.keys).toFinset,
          b.logDensityAt k.quantity (value k).toReal)) ∧
        (¬ Feasible m channels b value → x = negInfinity) := by
  obtain ⟨r, hr⟩ := exists_build? hb m channels
  refine ⟨r, hr, fun p value hp => ?_⟩
  have hvalues : r.logAt p = .ok (r.logOfValues ((modelKeys m channels).map value)) := by
    rw [← forall_mem_modelKeys, ← keys_of_build? hr, List.forall_mem_map] at hp
    rw [← keys_of_build? hr]
    exact logAt_eq_logOfValues value hp
  have hiff : negInfinity < r.logOfValues ((modelKeys m channels).map value) ↔
      Feasible m channels b value := negInfinity_lt_iff_feasible hr hb
  refine ⟨_, hvalues, hiff, fun h => ?_, fun h => ?_⟩
  · obtain ⟨hordered, -⟩ := negInfinity_lt_logOfValues_iff.mp (hiff.mpr h)
    rw [logOfValues, if_pos hordered, logSum_of_feasible hr hb hchannels h]
  · rcases (isProper_of_build? hb hr).isLog_logOfValues ((modelKeys m channels).map value)
      with hzero | ⟨t, ht⟩
    · exact hzero
    · rw [← hiff, ht] at h
      exact absurd trivial h

/-- Two lensed pulses with residuals in two channels, where all parameters are one. -/
theorem logAt_eq_sum_GsGs :
    ∃ r, build? ⟨true, [⟨.gaussian, some .sineGaussian⟩, ⟨.gaussian, some .sineGaussian⟩], none⟩
        [.a, .b] tenBounds = some (.ok r) ∧
      ∃ x, r.logAt (.ofPairs (r.entries.map fun e => (e.name, Exact.real 1))) = .ok x ∧
        negInfinity < x := by
  have hchannels : [Channel.a, .b].Nodup := by decide
  obtain ⟨r, hr, hall⟩ := logAt_eq_sum
    ⟨true, [⟨.gaussian, some .sineGaussian⟩, ⟨.gaussian, some .sineGaussian⟩], none⟩ hchannels
    validate_tenBounds
  let value (_ : Key) : Exact := .real 1
  obtain ⟨x, hx, hiff, -, -⟩ := hall (.ofPairs (r.entries.map fun e => (e.name, value e.key))) value
    fun ch hch k hk => getElem?_ofPairs_entries value (by
      rw [keys_of_build? hr]
      exact mem_modelKeys.mpr ⟨ch, hch, hk⟩)
  have hconstant (xs : List Nat) : Ascending xs fun _ => Exact.real 1 :=
    fun _ _ _ _ _ => Exact.real_le_real.mpr le_rfl
  refine ⟨r, hr, x, hx, hiff.mpr ⟨fun _ _ k _ => Bounds.one_mem_interval k.quantity, ?_, ?_⟩⟩
  · exact fun _ _ => hconstant _
  · exact fun _ _ => hconstant _

end Prior

end PulseFit
