import PulseFit.Decimal.Shortest
import PulseFit.Key
import PulseFit.Prior.Marginal

/-!
# Prior.Bounds — bounds of the parameters

Places in time lie in a window, phases in a full turn, the quantities of the lens in bounds of
their own; these are uniform.  All other quantities are positive and log-uniform.  `validate`
accepts bounds that give every quantity a distribution.
-/

namespace PulseFit

/-- Why there is no prior, or no draw from one. -/
inductive PriorError (α : Type) where
  | key (error : KeyError)
  | unknownPrior (name : String)
  | missingParameter (name : String)
  | invalidBounds (quantity : Quantity) (lo hi : α)
  | rejectionLimit (attempts : Nat)

namespace PriorError

/-- The wording of the error. -/
def message : PriorError Float → String
  | key error => error.message
  | unknownPrior name => "no prior is defined for key '" ++ name ++ "'"
  | missingParameter name => "parameter '" ++ name ++ "' is missing from the assignment"
  | invalidBounds quantity lo hi =>
    "invalid prior bounds for '" ++ quantity.name ++ "': [" ++ Decimal.shortest lo ++ ", " ++
      Decimal.shortest hi ++ "]"
  | rejectionLimit attempts =>
    "no prior draw satisfied the ordering constraints after " ++ toString attempts ++
      " attempts"

end PriorError

/-- The lower and the upper bound of a quantity. -/
structure Interval (α : Type) where
  lo : α
  hi : α
  deriving Repr

namespace Interval

variable {α : Type} [Scalar α]

/-- Whether both bounds are finite and the lower is below the upper. -/
def proper (i : Interval α) : Bool :=
  Scalar.isFinite i.lo && Scalar.isFinite i.hi && decide (i.lo < i.hi)

/-- Whether the interval is proper and, where asked for, holds positive numbers only. -/
def admissible (positive : Bool) (i : Interval α) : Bool :=
  i.proper && (!positive || !decide (i.lo ≤ 0.0))

/-- Whether both bounds are equal. -/
def same (i j : Interval α) : Bool := i.lo == j.lo && i.hi == j.hi

end Interval

/-- Bounds of all quantities. -/
structure Bounds (α : Type) where
  /-- The window of pulses and residuals. -/
  window : Interval α
  /-- The bounds of the time delay; from zero to the width of the window unless given. -/
  timeDelay : Option (Interval α)
  background : Interval α
  magnificationRatio : Interval α
  tau : Interval α
  xi : Interval α
  gamma : Interval α
  nu : Interval α
  sigma : Interval α
  scale : Interval α
  sineAmplitude : Interval α
  sineLambda : Interval α
  sineOmega : Interval α
  besselAmplitude : Interval α
  besselOmega : Interval α
  besselS : Interval α

namespace Bounds

variable {α : Type} [Scalar α]

/-- The usual bounds for a window. -/
def ofWindow (window : Interval α) : Bounds α where
  window
  timeDelay := none
  background := ⟨0.1, 1000.0⟩
  magnificationRatio := ⟨0.2, 1.4⟩
  tau := ⟨0.001, 1000.0⟩
  xi := ⟨0.001, 1000.0⟩
  gamma := ⟨0.1, 10.0⟩
  nu := ⟨0.1, 10.0⟩
  sigma := ⟨0.001, 1000.0⟩
  scale := ⟨1.0, 100000.0⟩
  sineAmplitude := ⟨1.0, 1000.0⟩
  sineLambda := ⟨0.001, 1000.0⟩
  sineOmega := ⟨0.001, 10000.0⟩
  besselAmplitude := ⟨0.1, 1000000.0⟩
  besselOmega := ⟨0.001, 1000.0⟩
  besselS := ⟨0.001, 1000.0⟩

/-- The width of the window, which is also the largest distance of neighbouring pulses. -/
def width (b : Bounds α) : α := b.window.hi - b.window.lo

/-- The bounds of the time delay. -/
def delay (b : Bounds α) : Interval α := b.timeDelay.getD ⟨0.0, b.width⟩

/-- The quantities with positive bounds, in the order in which they are checked. -/
def positive (b : Bounds α) : List (Quantity × Interval α) :=
  [(.background, b.background), (.shape .scale, b.scale), (.shape .sigma, b.sigma),
    (.shape .tau, b.tau), (.shape .xi, b.xi), (.shape .gamma, b.gamma), (.shape .nu, b.nu),
    (.shape .sineAmplitude, b.sineAmplitude), (.shape .sineLambda, b.sineLambda),
    (.shape .sineOmega, b.sineOmega), (.shape .besselAmplitude, b.besselAmplitude),
    (.shape .besselOmega, b.besselOmega), (.shape .besselS, b.besselS)]

/-- The quantities with bounds of any sign, in the order in which they are checked. -/
def signed (b : Bounds α) : List (Quantity × Interval α) :=
  [(.shape .start, b.window), (.lens .timeDelay, b.delay),
    (.lens .magnificationRatio, b.magnificationRatio)]

/-- The first quantity whose bounds are not admissible. -/
def violation? (b : Bounds α) : Option (Quantity × Interval α) :=
  (b.signed.find? fun x => !x.2.admissible false).or
    (b.positive.find? fun x => !x.2.admissible true)

/-- Refuses bounds with the first quantity that they give no distribution. -/
def validate (b : Bounds α) : Except (PriorError α) Unit :=
  match b.violation? with
  | none => .ok ()
  | some (q, i) => .error (.invalidBounds q i.lo i.hi)

/-- The distribution of a quantity, if the bounds allow one. -/
def marginal? (b : Bounds α) : Quantity → Option (Marginal α)
  | .lens .timeDelay => Marginal.uniform? b.delay.lo b.delay.hi
  | .lens .magnificationRatio =>
    Marginal.uniform? b.magnificationRatio.lo b.magnificationRatio.hi
  | .background => Marginal.logUniform? b.background.lo b.background.hi
  | .shape .start => Marginal.uniform? b.window.lo b.window.hi
  | .shape .residualBegin => Marginal.uniform? b.window.lo b.window.hi
  | .shape .sinePhi => Marginal.uniform? (-Scalar.pi) Scalar.pi
  | .shape .besselDelta => Marginal.uniform? (-Scalar.pi) Scalar.pi
  | .shape .scale => Marginal.logUniform? b.scale.lo b.scale.hi
  | .shape .sigma => Marginal.logUniform? b.sigma.lo b.sigma.hi
  | .shape .tau => Marginal.logUniform? b.tau.lo b.tau.hi
  | .shape .xi => Marginal.logUniform? b.xi.lo b.xi.hi
  | .shape .gamma => Marginal.logUniform? b.gamma.lo b.gamma.hi
  | .shape .nu => Marginal.logUniform? b.nu.lo b.nu.hi
  | .shape .sineAmplitude => Marginal.logUniform? b.sineAmplitude.lo b.sineAmplitude.hi
  | .shape .sineLambda => Marginal.logUniform? b.sineLambda.lo b.sineLambda.hi
  | .shape .sineOmega => Marginal.logUniform? b.sineOmega.lo b.sineOmega.hi
  | .shape .besselAmplitude => Marginal.logUniform? b.besselAmplitude.lo b.besselAmplitude.hi
  | .shape .besselOmega => Marginal.logUniform? b.besselOmega.lo b.besselOmega.hi
  | .shape .besselS => Marginal.logUniform? b.besselS.lo b.besselS.hi

end Bounds

end PulseFit
