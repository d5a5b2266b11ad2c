import PulseFit.Component
import PulseFit.Key

/-!
# Model — a row of pulses, lensed or not

A model is a list of pulses.  Each has one shape and at most one residual, and its number is its
place in the list, counted from one.  What other descriptions of a model have to demand (numbers
without gaps, one shape to a pulse, one residual at most) holds here by the form of the type.
-/

namespace PulseFit

/-- A pulse and the residual on it. -/
structure Pulse where
  shape : PulseShape
  residual : Option ResidualShape := none
  deriving DecidableEq, Repr

/-- What a rate is made of. -/
structure Model where
  /-- A lens adds a delayed and magnified image of every component. -/
  lensed : Bool
  pulses : List Pulse
  /-- A name of its own, which has no part in the computation. -/
  name : Option String := none
  deriving DecidableEq, Repr

/-- Whether the component is the pulse's shape or sits on it. -/
def Pulse.has (p : Pulse) : Component → Bool
  | .pulse s => p.shape == s
  | .residual s => p.residual == some s

namespace Model

/-- The pulses with their numbers. -/
def numbered (m : Model) : List (Pulse × Nat) := m.pulses.zipIdx 1

/-- The numbers of the pulses that have a component, ascending. -/
def indices (m : Model) (c : Component) : List Nat :=
  (m.numbered.filter (·.1.has c)).map (·.2)

/-- Every component with every pulse that has it, in listing order. -/
def components (m : Model) : List (Component × Nat) :=
  Component.all.flatMap fun c => (m.indices c).map (c, ·)

/-- The number of pulses. -/
def size (m : Model) : Nat := m.pulses.length

/-- The numbers of the pulses with a residual, ascending. -/
def residualChain (m : Model) : List Nat :=
  (m.numbered.filter (·.1.residual.isSome)).map (·.2)

/-- The pulse of a number. -/
def pulse? (m : Model) (i : Nat) : Option Pulse :=
  if i = 0 then none else m.pulses[i - 1]?

/-- The shape of a pulse. -/
def shapeAt? (m : Model) (i : Nat) : Option PulseShape := (m.pulse? i).map (·.shape)

/-- The residual on a pulse. -/
def residualAt? (m : Model) (i : Nat) : Option ResidualShape := (m.pulse? i).bind (·.residual)

/-- The same model under another name. -/
def withName (m : Model) (name : String) : Model := { m with name := some name }

/-- The parameters of the model in a channel: lens, background, then for every component and every
quantity of it the pulses that have the component. -/
def keys (m : Model) (ch : Channel) : List Key :=
  (if m.lensed then LensQuantity.all.map Key.lens else []) ++ Key.background ch ::
    Component.all.flatMap fun c => c.quantities.flatMap fun q =>
      (m.indices c).map fun i => Key.shape q i ch

end Model

end PulseFit
