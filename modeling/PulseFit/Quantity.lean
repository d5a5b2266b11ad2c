/-!
# Quantity — what the parameters of a model measure

A quantity belongs to the lens, to the background or to the shape of a pulse.  The first kind is
shared by all channels, the second exists once in each channel, the third once for each pulse of
each channel.
-/

namespace PulseFit

/-- How often a quantity occurs in a model. -/
inductive Scope where
  /-- Once, for all channels and pulses. -/
  | shared
  /-- Once in each channel. -/
  | perChannel
  /-- Once for each pulse in each channel. -/
  | perPulse
  deriving DecidableEq, Repr

/-- A quantity of the gravitational lens. -/
inductive LensQuantity where
  | timeDelay | magnificationRatio
  deriving DecidableEq, Repr

/-- A quantity of a pulse or of the residual on it. -/
inductive ShapeQuantity where
  | start | scale | sigma | tau | xi | gamma | nu
  | sineAmplitude | residualBegin | sineLambda | sineOmega | sinePhi
  | besselAmplitude | besselOmega | besselS | besselDelta
  deriving DecidableEq, Repr

/-- What a parameter measures. -/
inductive Quantity where
  | lens (q : LensQuantity)
  | background
  | shape (q : ShapeQuantity)
  deriving DecidableEq, Repr

namespace LensQuantity

/-- Both lens quantities, in the order in which they are listed. -/
def all : List LensQuantity := [timeDelay, magnificationRatio]

/-- The name in parameter names. -/
def name : LensQuantity → String
  | timeDelay => "time_delay"
  | magnificationRatio => "magnification_ratio"

/-- The name in a configuration text. -/
def tag : LensQuantity → String
  | timeDelay => "TimeDelay"
  | magnificationRatio => "MagnificationRatio"

end LensQuantity

namespace ShapeQuantity

/-- All shape quantities, in the order in which they are listed. -/
def all : List ShapeQuantity :=
  [start, scale, sigma, tau, xi, gamma, nu, sineAmplitude, residualBegin, sineLambda, sineOmega,
    sinePhi, besselAmplitude, besselOmega, besselS, besselDelta]

/-- The name in parameter names. -/
def name : ShapeQuantity → String
  | start => "start"
  | scale => "scale"
  | sigma => "sigma"
  | tau => "tau"
  | xi => "xi"
  | gamma => "gamma"
  | nu => "nu"
  | sineAmplitude => "sg_A"
  | residualBegin => "res_begin"
  | sineLambda => "sg_lambda"
  | sineOmega => "sg_omega"
  | sinePhi => "sg_phi"
  | besselAmplitude => "bes_A"
  | besselOmega => "bes_Omega"
  | besselS => "bes_s"
  | besselDelta => "bes_Delta"

/-- The name in a configuration text. -/
def tag : ShapeQuantity → String
  | start => "Start"
  | scale => "Scale"
  | sigma => "Sigma"
  | tau => "Tau"
  | xi => "Xi"
  | gamma => "Gamma"
  | nu => "Nu"
  | sineAmplitude => "SgA"
  | residualBegin => "ResBegin"
  | sineLambda => "SgLambda"
  | sineOmega => "SgOmega"
  | sinePhi => "SgPhi"
  | besselAmplitude => "BesA"
  | besselOmega => "BesOmega"
  | besselS => "BesS"
  | besselDelta => "BesDelta"

/-- The place in the list of all shape quantities, by which keys are sorted. -/
def rank (q : ShapeQuantity) : Nat := all.idxOf q

end ShapeQuantity

namespace Quantity

/-- All quantities: lens, background, then shapes. -/
def all : List Quantity :=
  LensQuantity.all.map lens ++ background :: ShapeQuantity.all.map shape

/-- The name in parameter names. -/
def name : Quantity → String
  | lens q => q.name
  | background => "background"
  | shape q => q.name

/-- The name in a configuration text. -/
def tag : Quantity → String
  | lens q => q.tag
  | background => "Background"
  | shape q => q.tag

/-- How often the quantity occurs in a model. -/
def scope : Quantity → Scope
  | lens _ => .shared
  | background => .perChannel
  | shape _ => .perPulse

/-- The quantity with exactly this name. -/
def ofName? (text : String) : Option Quantity := all.find? (·.name == text)

end Quantity

end PulseFit
