import PulseFit.Model.Letters

/-!
# Model.Lists — models given by lists of pulse numbers

`IndexLists` names, for each component, the pulses that have it, in any order.  `ofLists` accepts
the lists that describe a model: the four pulse lists hold each of `1..N` once, the two residual
lists hold some of them, each at most once.  `lists` goes back.
-/

namespace PulseFit

/-- For each component the numbers of the pulses that have it. -/
structure IndexLists where
  gaussian : List Nat := []
  fred : List Nat := []
  fredx : List Nat := []
  convolution : List Nat := []
  sineGaussian : List Nat := []
  bessel : List Nat := []
  deriving DecidableEq, Repr

namespace IndexLists

/-- The list of a component. -/
def get (l : IndexLists) : Component → List Nat
  | .pulse .gaussian => l.gaussian
  | .pulse .fred => l.fred
  | .pulse .fredx => l.fredx
  | .pulse .convolution => l.convolution
  | .residual .sineGaussian => l.sineGaussian
  | .residual .bessel => l.bessel

/-- The lists that a function gives. -/
def ofFn (f : Component → List Nat) : IndexLists where
  gaussian := f (.pulse .gaussian)
  fred := f (.pulse .fred)
  fredx := f (.pulse .fredx)
  convolution := f (.pulse .convolution)
  sineGaussian := f (.residual .sineGaussian)
  bessel := f (.residual .bessel)

/-- The pulse numbers of all pulse lists, ascending. -/
def pulseNumbers (l : IndexLists) : List Nat :=
  (PulseShape.all.flatMap fun s => l.get (.pulse s)).mergeSort

/-- The pulse numbers of all residual lists, ascending. -/
def owners (l : IndexLists) : List Nat :=
  (ResidualShape.all.flatMap fun s => l.get (.residual s)).mergeSort

/-- The pulse of a number: the first shape and the first residual whose lists hold it. -/
def pulse? (l : IndexLists) (i : Nat) : Option Pulse :=
  (PulseShape.all.find? fun s => (l.get (.pulse s)).contains i).map fun shape =>
    { shape, residual := ResidualShape.all.find? fun s => (l.get (.residual s)).contains i }

end IndexLists

/-- The first entry of an ascending list that is equal to its successor. -/
def firstRepeat? : List Nat → Option Nat
  | i :: j :: rest => if i = j then some i else firstRepeat? (j :: rest)
  | _ => none

namespace Model

/-- The lists of a model. -/
def lists (m : Model) : IndexLists := .ofFn m.indices

/-- The model of lists, without a name, or what is wrong with them. -/
def ofLists (lensed : Bool) (l : IndexLists) : Except ModelError Model :=
  let numbers := l.pulseNumbers
  match firstRepeat? numbers with
  | some pulse => .error (.duplicatePulse pulse)
  | none =>
    if numbers ≠ List.range' 1 numbers.length then
      .error (.nonContiguousPulses numbers.length numbers)
    else
      match l.owners.find? fun i => i == 0 || numbers.length < i with
      | some pulse => .error (.residualWithoutPulse pulse numbers.length)
      | none =>
        match firstRepeat? l.owners with
        | some pulse => .error (.duplicateResidual pulse)
        | none => .ok { lensed, pulses := numbers.filterMap l.pulse? }

end Model

end PulseFit
