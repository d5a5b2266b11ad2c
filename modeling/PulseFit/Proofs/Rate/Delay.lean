import PulseFit.Proofs.Rate.Component
import PulseFit.Proofs.Scalar.Differences

/-!
# Proofs.Rate.Delay — a delayed component is a delayed rate

A component is delayed by adding to the one quantity that places it in time.  Every profile but that
of the sine-Gaussian looks at the time since then only, so its rate is that of an earlier time
(`ofComponent_delayed`).  The cosine of a sine-Gaussian runs by the clock: its envelope is delayed
and its phase is ahead by what the cosine turns in the meantime.
-/

namespace PulseFit.Rate

variable {α : Type} [Scalar α] [Scalar.LawfulSum α] [Scalar.LawfulDifference α]

open Scalar (LawfulSum LawfulDifference isFinite)

/-! ## Profiles -/

theorem gaussian_delayed (start delay scale sigma t : α) :
    gaussian (start + delay) scale sigma t = gaussian start scale sigma (t - delay) := by
  unfold gaussian
  rw [LawfulDifference.sub_add]

theorem fred_delayed (start delay scale tau xi t : α) :
    fred (start + delay) scale tau xi t = fred start scale tau xi (t - delay) := by
  unfold fred
  rw [LawfulDifference.sub_add]

theorem fredx_delayed (start delay scale tau xi gamma nu t : α) :
    fredx (start + delay) scale tau xi gamma nu t =
      fredx start scale tau xi gamma nu (t - delay) := by
  unfold fredx
  rw [LawfulDifference.sub_add]

/-- Both ends of the window are delayed, and the time outside it is counted from them. -/
theorem bessel_delayed (amplitude omega s middle delay delta t : α) :
    bessel amplitude omega s (middle + delay) delta t =
      bessel amplitude omega s middle delta (t - delay) := by
  have hafter : t > middle + delay + 0.5 * delta ↔ t - delay > middle + 0.5 * delta := by
    show middle + delay + 0.5 * delta < t ↔ middle + 0.5 * delta < t - delay
    rw [LawfulSum.add_right_comm, LawfulDifference.add_lt_iff]
  have hbefore : t < middle + delay - 0.5 * delta ↔ t - delay < middle - 0.5 * delta := by
    rw [LawfulDifference.add_sub_right_comm, LawfulDifference.sub_lt_iff]
  have hsince : t - (middle + delay) = t - delay - middle := LawfulDifference.sub_add ..
  have huntil : middle + delay - t = middle - (t - delay) := LawfulDifference.add_sub_eq ..
  unfold bessel
  simp only [hafter, hbefore, hsince, huntil]

/-- The envelope is delayed with its begin, the cosine only if its phase makes up for it. -/
theorem sineGaussian_delayed (amplitude start lambda phi t : α) {delay omega : α}
    (hdelay : isFinite delay = true) (homega : isFinite omega = true) :
    sineGaussian amplitude (start + delay) lambda omega phi t =
      sineGaussian amplitude start lambda omega (phi + omega * delay) (t - delay) := by
  have hturn : omega * (t - delay) + (phi + omega * delay) = omega * t + phi :=
    calc omega * (t - delay) + (phi + omega * delay)
        = omega * (t - delay) + omega * delay + phi := by
          rw [LawfulSum.add_comm phi, LawfulSum.add_assoc]
      _ = omega * (t - delay + delay) + phi := by rw [LawfulDifference.mul_add _ _ homega]
      _ = omega * t + phi := by rw [LawfulDifference.sub_add_cancel t hdelay]
  unfold sineGaussian
  rw [hturn, LawfulDifference.sub_add]

/-! ## Components -/

/-- The values of a component whose cosine is ahead by what it turns during a delay. -/
def rephased (delay : α) (value : ShapeQuantity → α) (q : ShapeQuantity) : α :=
  if q = .sinePhi then value q + value .sineOmega * delay else value q

omit [Scalar.LawfulSum α] [Scalar.LawfulDifference α] in
/-- Only the sine-Gaussian has a phase. -/
theorem ofComponent_rephased {c : Component} (h : c ≠ .residual .sineGaussian) (delay : α)
    (value : ShapeQuantity → α) (times : Array α) :
    ofComponent c (rephased delay value) times = ofComponent c value times := by
  rcases c with (_ | _ | _ | _) | (_ | _)
  case residual.sineGaussian => exact absurd rfl h
  all_goals rfl

omit [Scalar.LawfulSum α] [Scalar.LawfulDifference α] in
theorem map_delayed {f g : α → α} {delay : α} (h : ∀ t, f t = g (t - delay)) (times : Array α) :
    times.map f = (times.map (· - delay)).map g := by
  rw [Array.map_map]
  apply Array.map_congr_left
  intro t _
  exact h t

/-- The rate of a delayed component is that of the component at times that are earlier by the delay;
of a sine-Gaussian with the phase ahead. -/
theorem ofComponent_delayed {c : Component} (hc : c ≠ .pulse .convolution) {delay : α}
    {value : ShapeQuantity → α} (hturn : c = .residual .sineGaussian →
      isFinite delay = true ∧ isFinite (value .sineOmega) = true) (times : Array α) :
    ofComponent c (delayed c delay value) times =
      ofComponent c (rephased delay value) (times.map (· - delay)) := by
  rcases c with (_ | _ | _ | _) | (_ | _)
  case pulse.gaussian => exact map_delayed (fun t => gaussian_delayed ..) times
  case pulse.fred => exact map_delayed (fun t => fred_delayed ..) times
  case pulse.fredx => exact map_delayed (fun t => fredx_delayed ..) times
  case pulse.convolution => exact absurd rfl hc
  case residual.sineGaussian =>
    obtain ⟨hdelay, homega⟩ := hturn rfl
    exact map_delayed (fun t => sineGaussian_delayed _ _ _ _ _ hdelay homega) times
  case residual.bessel => exact map_delayed (fun t => bessel_delayed ..) times

omit [Scalar.LawfulDifference α] in
/-- Without a phase a component adds what it did. -/
theorem addComponent?_rephased {c : Component} (h : c ≠ .residual .sineGaussian) (delay : α)
    (value : ShapeQuantity → α) {times : Array α} (factor : α) {out : Array α}
    (hout : out.size = times.size) :
    addComponent? c (c.quantities.map (rephased delay value)) times factor out =
      addComponent? c (c.quantities.map value) times factor out := by
  rw [addComponent?_eq _ _ _ hout, addComponent?_eq _ _ _ hout, ofComponent_rephased h]

/-- A delayed component adds what the component does at times that are earlier by the delay. -/
theorem addComponent?_delayed {c : Component} (hc : c ≠ .pulse .convolution) {delay : α}
    {value : ShapeQuantity → α} (hturn : c = .residual .sineGaussian →
      isFinite delay = true ∧ isFinite (value .sineOmega) = true) {times : Array α} (factor : α)
    {out : Array α} (hout : out.size = times.size) :
    addComponent? c ((c.quantities.map value).modify c.timeIndex (· + delay)) times factor out =
      addComponent? c (c.quantities.map (rephased delay value)) (times.map (· - delay)) factor
        out := by
  have hearlier : out.size = (times.map (· - delay)).size := by rw [hout, Array.size_map]
  rw [modify_timeIndex, addComponent?_eq _ _ _ hout, addComponent?_eq _ _ _ hearlier,
    ofComponent_delayed hc hturn]

omit [Scalar.LawfulSum α] [Scalar.LawfulDifference α] in
/-- Real numbers under a sine-Gaussian of real numbers. -/
theorem sineGaussian_real (amplitude start omega phi t : ℝ) {lambda : ℝ} (h : lambda ≠ 0) :
    sineGaussian (.real amplitude) (.real start) (.real lambda) (.real omega) (.real phi)
        (.real t) =
      Exact.real (amplitude * Real.exp (-((t - start) / lambda * ((t - start) / lambda))) *
        Real.cos (omega * t + phi)) := by
  unfold sineGaussian
  rw [Exact.real_sub_real, Exact.real_div_real _ h]
  rfl

end PulseFit.Rate
