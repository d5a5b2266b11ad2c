import PulseFit.Component
import PulseFit.Scalar

/-!
# Rate.Profile — rates as functions of time

A profile gives the rate of a component at one time.  Denominators are guarded by `tiny`, the
argument of the exponential is cut off where the result would overflow, and pulses with an onset
keep a tiny positive rate up to it.
-/

namespace PulseFit.Rate

variable {α : Type} [Scalar α]

open Scalar (tiny exp cos pow besselJ0)

/-- The square. -/
@[inline] def square (x : α) : α := x * x

/-- The largest argument of the exponential, just below the logarithm of the largest double. -/
@[inline] def exponentLimit : α := 709.78

/-- The exponential of the argument or of the limit, whichever is less. -/
@[inline] def cappedExp (x : α) : α := exp (if x < exponentLimit then x else exponentLimit)

/-- A Gaussian of height `scale` around `start`. -/
@[specialize] def gaussian (start scale sigma t : α) : α :=
  scale * exp (-square (t - start) / (2.0 * square sigma + tiny))

/-- Fast rise and exponential decay with its peak at height `scale`. -/
@[specialize] def fred (start scale tau xi t : α) : α :=
  let dt := t - start
  if dt ≤ 0.0 then tiny
  else scale * cappedExp (-xi * (tau / (dt + tiny) + dt / (tau + tiny) - 2.0))

/-- Fast rise and exponential decay without the shift of the exponent to the peak. -/
@[specialize] def fredUnnormalized (start scale tau xi t : α) : α :=
  let dt := t - start
  if dt ≤ 0.0 then tiny
  else scale * cappedExp (-xi * (tau / (dt + tiny) + dt / (tau + tiny)))

/-- The least value of `(ξτ/dt)^γ + (ξdt/τ)^ν` over all `dt > 0`. -/
@[specialize] def fredxNorm (xi gamma nu : α) : α :=
  let sum := gamma + nu
  let ratio := gamma / nu
  pow xi (2.0 * gamma * nu / sum) * (pow ratio (nu / sum) + pow ratio (-gamma / sum))

/-- The exponent `-(ξτ/dt)^γ - (ξdt/τ)^ν`. -/
@[specialize] def fredxExponent (tau xi gamma nu dt : α) : α :=
  -pow (xi * (tau / dt)) gamma - pow (xi * (dt / tau)) nu

/-- Fast rise and exponential decay with exponents of their own, the peak at height `scale`. -/
@[specialize] def fredx (start scale tau xi gamma nu t : α) : α :=
  let dt := t - start
  if dt ≤ 0.0 then tiny * scale
  else scale * cappedExp (fredxExponent tau xi gamma nu dt + fredxNorm xi gamma nu)

/-- The same without the shift of the exponent to the peak. -/
@[specialize] def fredxUnnormalized (start scale tau xi gamma nu t : α) : α :=
  let dt := t - start
  if dt ≤ 0.0 then tiny * scale
  else scale * cappedExp (fredxExponent tau xi gamma nu dt)

/-- A cosine under a Gaussian around `begin`; it may be negative. -/
@[specialize] def sineGaussian (amplitude start lambda omega phi t : α) : α :=
  amplitude * exp (-square ((t - start) / lambda)) * cos (omega * t + phi)

/-- Constant in the window of width `delta` around `middle`; outside it rings as a Bessel
function, after the window `s` times as fast as before it. -/
@[specialize] def bessel (amplitude omega s middle delta t : α) : α :=
  let half := 0.5 * delta
  let b :=
    if t > middle + half then besselJ0 (s * omega * (t - middle - half))
    else if t < middle - half then besselJ0 (omega * (middle - t - half))
    else 1.0
  amplitude * b

/-- An exponential decay that sets in at `start`. -/
@[specialize] def decay (tau start t : α) : α :=
  let dt := t - start
  if dt ≤ 0.0 then tiny else exp (-dt / (tau + tiny))

/-- The profile of a component with values for its quantities; a convolution has none, since its
rate depends on all times. -/
@[specialize] def profile? : Component → List α → Option (α → α)
  | .pulse .gaussian, [start, scale, sigma] => some (gaussian start scale sigma)
  | .pulse .fred, [start, scale, tau, xi] => some (fred start scale tau xi)
  | .pulse .fredx, [start, scale, tau, xi, gamma, nu] =>
    some (fredx start scale tau xi gamma nu)
  | .residual .sineGaussian, [amplitude, start, lambda, omega, phi] =>
    some (sineGaussian amplitude start lambda omega phi)
  | .residual .bessel, [amplitude, omega, s, middle, delta] =>
    some (bessel amplitude omega s middle delta)
  | _, _ => none

end PulseFit.Rate
