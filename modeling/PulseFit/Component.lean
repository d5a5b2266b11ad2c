import PulseFit.Quantity

/-!
# Component — the shapes that add up to a rate

A component is the shape of a pulse or the shape of a residual that sits on a pulse.
`Component.all` is the order in which components are listed everywhere: in key lists, in priors
and in the summation of a rate.
-/

namespace PulseFit

/-- The shape of a pulse. -/
inductive PulseShape where
  | gaussian | fred | fredx | convolution
  deriving DecidableEq, Repr

/-- The shape of a residual. -/
inductive ResidualShape where
  | sineGaussian | bessel
  deriving DecidableEq, Repr

/-- A summand of the rate. -/
inductive Component where
  | pulse (shape : PulseShape)
  | residual (shape : ResidualShape)
  deriving DecidableEq, Repr

namespace PulseShape

open ShapeQuantity

/-- The pulse shapes in their listing order. -/
def all : List PulseShape := [gaussian, fred, fredx, convolution]

/-- The upper-case letter of the shape in a model key. -/
def letter : PulseShape → Char
  | gaussian => 'G'
  | fred => 'F'
  | fredx => 'X'
  | convolution => 'C'

/-- The shape of a letter. -/
def ofLetter? (x : Char) : Option PulseShape := all.find? (·.letter == x)

/-- The quantities of the shape, in the order in which its profile takes them. -/
def quantities : PulseShape → List ShapeQuantity
  | gaussian => [start, scale, sigma]
  | fred => [start, scale, tau, xi]
  | fredx => [start, scale, tau, xi, gamma, nu]
  | convolution => [start, scale, sigma, tau]

/-- The name for a reader. -/
def description : PulseShape → String
  | gaussian => "Gaussian pulse"
  | fred => "FRED pulse"
  | fredx => "FRED-X pulse"
  | convolution => "Convolution pulse"

/-- The name in a configuration text. -/
def tag : PulseShape → String
  | gaussian => "Gaussian"
  | fred => "Fred"
  | fredx => "FredX"
  | convolution => "Convolution"

end PulseShape

namespace ResidualShape

open ShapeQuantity

/-- The residual shapes in their listing order. -/
def all : List ResidualShape := [sineGaussian, bessel]

/-- The lower-case letter of the shape in a model key. -/
def letter : ResidualShape → Char
  | sineGaussian => 's'
  | bessel => 'b'

/-- The shape of a letter. -/
def ofLetter? (x : Char) : Option ResidualShape := all.find? (·.letter == x)

/-- The quantities of the shape, in the order in which its profile takes them. -/
def quantities : ResidualShape → List ShapeQuantity
  | sineGaussian => [sineAmplitude, residualBegin, sineLambda, sineOmega, sinePhi]
  | bessel => [besselAmplitude, besselOmega, besselS, residualBegin, besselDelta]

/-- The name for a reader. -/
def description : ResidualShape → String
  | sineGaussian => "Sine-Gaussian residual"
  | bessel => "Bessel residual"

/-- The name in a configuration text. -/
def tag : ResidualShape → String
  | sineGaussian => "SineGaussian"
  | bessel => "Bessel"

end ResidualShape

namespace Component

/-- All components: pulses, then residuals. -/
def all : List Component :=
  PulseShape.all.map pulse ++ ResidualShape.all.map residual

/-- The letter of the component in a model key. -/
def letter : Component → Char
  | pulse s => s.letter
  | residual s => s.letter

/-- The quantities of the component, in the order in which its profile takes them. -/
def quantities : Component → List ShapeQuantity
  | pulse s => s.quantities
  | residual s => s.quantities

/-- The quantity that places the component in time; the lens delays it. -/
def timeQuantity : Component → ShapeQuantity
  | pulse _ => .start
  | residual _ => .residualBegin

/-- The place of the time quantity among the component's quantities. -/
def timeIndex (c : Component) : Nat := c.quantities.idxOf c.timeQuantity

/-- The name for a reader. -/
def description : Component → String
  | pulse s => s.description
  | residual s => s.description

theorem timeQuantity_mem_quantities (c : Component) : c.timeQuantity ∈ c.quantities := by
  rcases c with (_ | _ | _ | _) | (_ | _) <;> decide

end Component

end PulseFit
