import PulseFit.Proofs.Rate.Component

/-!
# Proofs.Rate.Positive — pulses have positive rates

Without rounding a pulse with positive parameters has a positive rate at every time, whatever its
start: exponentials are positive, denominators are kept from zero, and before the onset a tiny rate
remains.  An entry of a convolution is a sum of products of positive numbers, and there is always
one, since some place of the decay meets every place of the Gaussian
(`isPositive_decayingGaussian`).  Residuals have no part in this; a cosine and a Bessel function
change their signs.
-/

namespace PulseFit.Rate

open Exact (real IsPositive isPositive_real real_add_real real_mul_real real_sub_real real_div_real)

/-! ## Profiles -/

theorem tiny_pos : (0 : ℝ) < 2 ^ (-1022 : ℤ) := zpow_pos two_pos _

theorem isPositive_tiny : IsPositive Scalar.tiny := isPositive_real tiny_pos

theorem isPositive_cappedExp (x : ℝ) : IsPositive (cappedExp (real x)) := by
  have hexp (y : ℝ) : IsPositive (Scalar.exp (real y)) := isPositive_real (Real.exp_pos y)
  unfold cappedExp
  by_cases h : real x < exponentLimit
  · rw [if_pos h]
    exact hexp x
  · rw [if_neg h]
    exact hexp _

/-- A time that is not before the onset is behind it. -/
theorem sub_pos_of_not_le {start t : ℝ} (h : ¬ real t - real start ≤ 0.0) :
    0 < t - start := by
  rw [Exact.zero_eq, real_sub_real, Exact.real_le_real] at h
  exact lt_of_not_ge h

theorem exists_gaussian_real (start scale sigma t : ℝ) :
    ∃ e : ℝ, 0 < e ∧ e ≤ 1 ∧
      gaussian (real start) (real scale) (real sigma) (real t) = real (scale * e) := by
  have hbelow : (2.0 : Exact) * square (real sigma) + Scalar.tiny =
      real (2 * (sigma * sigma) + 2 ^ (-1022 : ℤ)) := by
    rw [Exact.two_eq]
    rfl
  have hpos : 0 < 2 * (sigma * sigma) + (2 : ℝ) ^ (-1022 : ℤ) :=
    add_pos_of_nonneg_of_pos (mul_nonneg zero_le_two (mul_self_nonneg _)) (zpow_pos two_pos _)
  have hexponent : -square (real t - real start) =
      real (-((t - start) * (t - start))) := by
    rw [real_sub_real]
    rfl
  refine ⟨Real.exp (-((t - start) * (t - start)) / (2 * (sigma * sigma) + 2 ^ (-1022 : ℤ))),
    Real.exp_pos _, Real.exp_le_one_iff.mpr ?_, ?_⟩
  · exact div_nonpos_of_nonpos_of_nonneg (neg_nonpos.mpr (mul_self_nonneg _)) hpos.le
  · unfold gaussian
    rw [hbelow, hexponent, real_div_real _ hpos.ne']
    rfl

theorem isPositive_gaussian {scale : ℝ} (hscale : 0 < scale) (start sigma t : ℝ) :
    IsPositive (gaussian (real start) (real scale) (real sigma) (real t)) := by
  obtain ⟨e, he, -, hgaussian⟩ := exists_gaussian_real start scale sigma t
  rw [hgaussian]
  exact isPositive_real (mul_pos hscale he)

theorem isPositive_fred {scale tau : ℝ} (hscale : 0 < scale) (htau : 0 < tau) (start xi t : ℝ) :
    IsPositive (fred (real start) (real scale) (real tau) (real xi) (real t)) := by
  unfold fred
  by_cases h : real t - real start ≤ 0.0
  · rw [if_pos h]
    exact isPositive_tiny
  · have hdt := sub_pos_of_not_le h
    have hrise : real tau / (real (t - start) + Scalar.tiny) =
        real (tau / (t - start + 2 ^ (-1022 : ℤ))) :=
      real_div_real tau (add_pos hdt tiny_pos).ne'
    have hfall : real (t - start) / (real tau + Scalar.tiny) =
        real ((t - start) / (tau + 2 ^ (-1022 : ℤ))) :=
      real_div_real (t - start) (add_pos htau tiny_pos).ne'
    rw [if_neg h, real_sub_real, hrise, hfall, real_add_real, Exact.two_eq, real_sub_real]
    exact (isPositive_real hscale).mul (isPositive_cappedExp _)

/-- The shift of the exponent to the peak. -/
noncomputable def peakShift (xi gamma nu : ℝ) : ℝ :=
  xi ^ ((gamma + gamma) * nu / (gamma + nu)) *
    ((gamma / nu) ^ (nu / (gamma + nu)) + (gamma / nu) ^ (-gamma / (gamma + nu)))

theorem peakShift_eq (xi gamma nu : ℝ) : peakShift xi gamma nu =
    xi ^ (2 * gamma * nu / (gamma + nu)) *
      ((gamma / nu) ^ (nu / (gamma + nu)) + (gamma / nu) ^ (-gamma / (gamma + nu))) := by
  rw [peakShift, ← two_mul]

theorem fredxNorm_real {xi gamma nu : ℝ} (hxi : 0 < xi) (hgamma : 0 < gamma) (hnu : 0 < nu) :
    fredxNorm (real xi) (real gamma) (real nu) = real (peakShift xi gamma nu) := by
  have hsum : gamma + nu ≠ 0 := (add_pos hgamma hnu).ne'
  have hratio : 0 < gamma / nu := div_pos hgamma hnu
  have hscale : (2.0 : Exact) * real gamma * real nu / (real gamma + real nu) =
      real (2 * gamma * nu / (gamma + nu)) := by
    rw [Exact.two_eq]
    exact real_div_real _ hsum
  have hbase : real gamma / real nu = real (gamma / nu) := real_div_real _ hnu.ne'
  have hup : real nu / (real gamma + real nu) = real (nu / (gamma + nu)) := real_div_real _ hsum
  have hdown : -real gamma / (real gamma + real nu) = real (-gamma / (gamma + nu)) :=
    real_div_real _ hsum
  unfold fredxNorm
  dsimp only
  rw [hscale, hbase, hup, hdown, Exact.pow_real hxi, Exact.pow_real hratio, Exact.pow_real hratio,
    peakShift_eq]
  rfl

/-- What keeps a pulse low before its peak and after it. -/
noncomputable def opposed (tau xi gamma nu dt : ℝ) : ℝ :=
  (xi * tau / dt) ^ gamma + (xi * dt / tau) ^ nu

theorem fredxExponent_real {tau xi dt : ℝ} (htau : 0 < tau) (hxi : 0 < xi) (hdt : 0 < dt)
    (gamma nu : ℝ) : fredxExponent (real tau) (real xi) (real gamma) (real nu) (real dt) =
      real (-opposed tau xi gamma nu dt) := by
  have hrise : 0 < xi * (tau / dt) := mul_pos hxi (div_pos htau hdt)
  have hfall : 0 < xi * (dt / tau) := mul_pos hxi (div_pos hdt htau)
  unfold fredxExponent opposed
  rw [real_div_real _ hdt.ne', real_div_real _ htau.ne', real_mul_real, real_mul_real,
    Exact.pow_real hrise, Exact.pow_real hfall, neg_add', mul_div_assoc, mul_div_assoc]
  exact real_sub_real _ _

theorem isPositive_fredx {scale tau xi gamma nu : ℝ} (hscale : 0 < scale) (htau : 0 < tau)
    (hxi : 0 < xi) (hgamma : 0 < gamma) (hnu : 0 < nu) (start t : ℝ) :
    IsPositive (fredx (real start) (real scale) (real tau) (real xi) (real gamma) (real nu)
      (real t)) := by
  unfold fredx
  by_cases h : real t - real start ≤ 0.0
  · rw [if_pos h]
    exact isPositive_tiny.mul (isPositive_real hscale)
  · have hdt := sub_pos_of_not_le h
    rw [if_neg h, real_sub_real, fredxExponent_real htau hxi hdt, fredxNorm_real hxi hgamma hnu,
      real_add_real]
    exact (isPositive_real hscale).mul (isPositive_cappedExp _)

theorem isPositive_decay {tau : ℝ} (htau : 0 < tau) (start t : ℝ) :
    IsPositive (decay (real tau) (real start) (real t)) := by
  unfold decay
  by_cases h : real t - real start ≤ 0.0
  · rw [if_pos h]
    exact isPositive_tiny
  · have hfall : -(real (t - start)) / (real tau + Scalar.tiny) =
        real (-(t - start) / (tau + 2 ^ (-1022 : ℤ))) :=
      real_div_real (-(t - start)) (add_pos htau tiny_pos).ne'
    rw [if_neg h, real_sub_real, hfall]
    exact isPositive_real (Real.exp_pos _)

/-! ## Convolutions -/

/-- A running sum of real numbers is one. -/
theorem exists_foldl_add_real {ι : Type} {f : ι → Exact} {is : List ι}
    (h : ∀ i ∈ is, ∃ t : ℝ, f i = real t) (t : ℝ) :
    ∃ u : ℝ, is.foldl (fun s i => s + f i) (real t) = real u := by
  induction is generalizing t with
  | nil => exact ⟨t, rfl⟩
  | cons i is ih =>
    obtain ⟨s, hs⟩ := h i List.mem_cons_self
    rw [List.foldl_cons, hs]
    exact ih (fun j hj => h j (List.mem_cons_of_mem _ hj)) (t + s)

theorem exists_laneSum_real (xs : Array ℝ) :
    ∃ t : ℝ, Scalar.laneSum (xs.map real) = real t := by
  unfold Scalar.laneSum
  rw [Exact.zero_eq]
  have hlane (l : Nat) : ∃ t : ℝ, (List.range ((xs.map real).size / 8)).foldl
      (fun s b => s + (xs.map real).getD (8 * b + l) (real 0)) (real 0) = real t :=
    exists_foldl_add_real (fun b _ => ⟨_, Exact.getD_map_real xs (8 * b + l)⟩) 0
  obtain ⟨joined, hjoined⟩ := exists_foldl_add_real (fun l (_ : l ∈ List.range 4) => by
    obtain ⟨t, ht⟩ := hlane l
    obtain ⟨u, hu⟩ := hlane (l + 4)
    exact ⟨t + u, congrArg₂ (· + ·) ht hu⟩) 0
  dsimp only
  rw [hjoined, ← Array.foldl_toList]
  refine exists_foldl_add_real (f := id) (fun x hx => ?_) joined
  rw [← Array.map_extract, Array.mem_toList_iff] at hx
  obtain ⟨t, -, rfl⟩ := Array.mem_map.mp hx
  exact ⟨t, rfl⟩

/-- The mean of real times is a real time. -/
theorem exists_mean_real (times : Array ℝ) : ∃ t : ℝ, Scalar.mean (times.map real) = real t := by
  unfold Scalar.mean
  by_cases hempty : (times.map real).isEmpty = true
  · rw [if_pos hempty]
    exact ⟨0, Exact.zero_eq⟩
  · obtain ⟨sum, hsum⟩ := exists_laneSum_real times
    have hsize : ((times.map real).size : ℝ) ≠ 0 := by
      rw [Array.isEmpty_iff_size_eq_zero] at hempty
      exact Nat.cast_ne_zero.mpr hempty
    rw [if_neg hempty, hsum]
    exact ⟨_, real_div_real sum hsize⟩

/-- An entry of the linear convolution of positive numbers is positive if there is a product in
it. -/
theorem linearEntry_pos {a v : Array ℝ} (ha : ∀ x ∈ a, 0 < x) (hv : ∀ x ∈ v, 0 < x) {i j : ℕ}
    (hi : i < a.size) (hj : j < v.size) : 0 < linearEntry a v (i + j) := by
  have hget {xs : Array ℝ} (hxs : ∀ x ∈ xs, 0 < x) {k : ℕ} (hk : k < xs.size) :
      0 < xs.getD k 0 := by
    rw [Array.getD_eq_getD_getElem?, Array.getElem?_eq_getElem hk]
    exact hxs _ (Array.getElem_mem hk)
  have hterm (k l : ℕ) (hk : k ∈ Finset.range a.size) (hl : l ∈ Finset.range v.size) :
      0 ≤ if k + l = i + j then a.getD k 0 * v.getD l 0 else 0 := by
    by_cases h : k + l = i + j
    · rw [if_pos h]
      exact (mul_pos (hget ha (Finset.mem_range.mp hk)) (hget hv (Finset.mem_range.mp hl))).le
    · rw [if_neg h]
  refine Finset.sum_pos' (fun k hk => Finset.sum_nonneg fun l hl => hterm k l hk hl)
    ⟨i, Finset.mem_range.mpr hi, ?_⟩
  refine Finset.sum_pos' (fun l hl => hterm i l (Finset.mem_range.mpr hi) hl)
    ⟨j, Finset.mem_range.mpr hj, ?_⟩
  rw [if_pos rfl]
  exact mul_pos (hget ha hi) (hget hv hj)

/-- With new buffers too, both ways add the centred linear convolution. -/
theorem addConvolution?_map_real {a v : Array ℝ} (ha : 0 < a.size) (hv : 0 < v.size) (factor : ℝ)
    {out : Array ℝ} (hout : out.size = a.size) :
    addConvolution? (a.map real) (v.map real) (real factor) (out.map real) =
      some ((withConvolution a v factor out).map real) := by
  have ha' : 0 < (a.map real).size := by simpa using ha
  have hv' : 0 < (v.map real).size := by simpa using hv
  have hout' : (out.map real).size = (a.map real).size := by simpa using hout
  have hlength := length_ofKept (none : Option (Workspace Exact)) (2 ^ level (a.size + v.size - 1))
  have hroom := le_two_pow_level (a.size + v.size - 1)
  unfold addConvolution?
  by_cases hshort : min (a.map real).size (v.map real).size < circularLength
  · have hdirect := addDirect?_map_real (α := Exact) ha hv factor out
    rw [addConvolutionIn?_short none ha' hv' hout' hshort, Option.map_map]
    exact congrArg (Option.map id) hdirect
  · obtain ⟨w, hw⟩ := addCircular?_map_real ha hv hlength (by omega) factor hout
    rw [addConvolutionIn?_long none ha' hv' hout' hshort, Array.size_map, Array.size_map]
    exact congrArg (fun r => (r.map fun r => (r.1, some r.2)).map (·.1)) hw

/-- A function that is positive at real times gives an array of positive numbers. -/
theorem isPositive_of_mem_map {f : Exact → Exact} (hf : ∀ t : ℝ, IsPositive (f (real t)))
    (times : Array ℝ) : ∀ x ∈ (times.map real).map f, IsPositive x := by
  intro x hx
  obtain ⟨y, hy, rfl⟩ := Array.mem_map.mp hx
  obtain ⟨t, -, rfl⟩ := Array.mem_map.mp hy
  exact hf t

theorem isPositive_decayingGaussian {start scale sigma tau : ℝ} (hscale : 0 < scale)
    (htau : 0 < tau) (times : Array ℝ) :
    ∀ x ∈ decayingGaussian (real start) (real scale) (real sigma) (real tau) (times.map real),
      IsPositive x := by
  obtain ⟨middle, hmiddle⟩ := exists_mean_real times
  obtain ⟨kernel, hkernel, hkernelPos⟩ := Exact.exists_eq_map_real
    (isPositive_of_mem_map (isPositive_gaussian one_pos middle sigma) times)
  obtain ⟨tail, htail, htailPos⟩ := Exact.exists_eq_map_real
    (isPositive_of_mem_map (isPositive_decay htau start) times)
  have hkernelSize : kernel.size = times.size := by
    simpa using (congrArg Array.size hkernel).symm
  have htailSize : tail.size = times.size := by
    simpa using (congrArg Array.size htail).symm
  intro x hx
  have hpos : 0 < times.size := by
    have hsize := (addDecayingGaussian?_eq (real start) (real scale) (real sigma) (real tau)
      (times.map real)).1
    rw [Array.size_map] at hsize
    rw [← hsize]
    exact Array.size_pos_of_mem hx
  have hresult : decayingGaussian (real start) (real scale) (real sigma) (real tau)
      (times.map real) =
      (withConvolution kernel tail (1 * scale) (Array.replicate times.size 0)).map real := by
    have hzeros : (Array.replicate times.size (0 : ℝ)).size = kernel.size := by simp [hkernelSize]
    have hadd := addConvolution?_map_real (a := kernel) (v := tail) (by omega) (by omega)
      (1 * scale) hzeros
    unfold decayingGaussian addDecayingGaussian?
    dsimp only
    rw [hmiddle, Exact.one_eq, hkernel, htail, real_mul_real, Exact.zero_eq, Array.size_map,
      ← Array.map_replicate, hadd]
    rfl
  rw [hresult] at hx
  obtain ⟨y, hy, rfl⟩ := Array.mem_map.mp hx
  obtain ⟨k, hk, rfl⟩ := Array.mem_mapIdx.mp hy
  rw [Array.size_replicate] at hk
  have hentry := linearEntry_pos hkernelPos htailPos (i := k) (j := (tail.size - 1) / 2)
    (by omega) (by omega)
  rw [Array.getElem_replicate, zero_add, one_mul]
  exact isPositive_real (mul_pos hscale hentry)

/-! ## Components -/

/-- A pulse of positive parameters has a positive rate at all times. -/
theorem isPositive_ofComponent {s : PulseShape} {value : ShapeQuantity → Exact} {start : ℝ}
    (hstart : value .start = real start)
    (hvalue : ∀ q ∈ s.quantities, q ≠ .start → IsPositive (value q)) (times : Array ℝ) :
    ∀ x ∈ ofComponent (.pulse s) value (times.map real), IsPositive x := by
  cases s with
  | gaussian =>
    obtain ⟨scale, hscale, hscaleEq⟩ := hvalue .scale (by decide) (by decide)
    obtain ⟨sigma, -, hsigmaEq⟩ := hvalue .sigma (by decide) (by decide)
    rw [ofComponent, hstart, hscaleEq, hsigmaEq]
    exact isPositive_of_mem_map (isPositive_gaussian hscale start sigma) times
  | fred =>
    obtain ⟨scale, hscale, hscaleEq⟩ := hvalue .scale (by decide) (by decide)
    obtain ⟨tau, htau, htauEq⟩ := hvalue .tau (by decide) (by decide)
    obtain ⟨xi, -, hxiEq⟩ := hvalue .xi (by decide) (by decide)
    rw [ofComponent, hstart, hscaleEq, htauEq, hxiEq]
    exact isPositive_of_mem_map (isPositive_fred hscale htau start xi) times
  | fredx =>
    obtain ⟨scale, hscale, hscaleEq⟩ := hvalue .scale (by decide) (by decide)
    obtain ⟨tau, htau, htauEq⟩ := hvalue .tau (by decide) (by decide)
    obtain ⟨xi, hxi, hxiEq⟩ := hvalue .xi (by decide) (by decide)
    obtain ⟨gamma, hgamma, hgammaEq⟩ := hvalue .gamma (by decide) (by decide)
    obtain ⟨nu, hnu, hnuEq⟩ := hvalue .nu (by decide) (by decide)
    rw [ofComponent, hstart, hscaleEq, htauEq, hxiEq, hgammaEq, hnuEq]
    exact isPositive_of_mem_map (isPositive_fredx hscale htau hxi hgamma hnu start) times
  | convolution =>
    obtain ⟨scale, hscale, hscaleEq⟩ := hvalue .scale (by decide) (by decide)
    obtain ⟨sigma, -, hsigmaEq⟩ := hvalue .sigma (by decide) (by decide)
    obtain ⟨tau, htau, htauEq⟩ := hvalue .tau (by decide) (by decide)
    rw [ofComponent, hstart, hscaleEq, hsigmaEq, htauEq]
    exact isPositive_decayingGaussian hscale htau times

end PulseFit.Rate
