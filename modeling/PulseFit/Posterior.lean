import PulseFit.Likelihood.Channel
import PulseFit.Prior

/-!
# Posterior — a likelihood and a prior over positions

A sampler moves in a space of positions: lists of values, one for each entry of the prior.  A
posterior turns a position into an assignment for the likelihood; it exists only where the prior
has every parameter that the likelihood reads.
-/

namespace PulseFit

/-- A likelihood with a prior for all its parameters. -/
structure Posterior (α : Type) where
  likelihood : Likelihood α
  prior : Prior α
  covered : ∀ name ∈ likelihood.names, name ∈ prior.names

namespace Posterior

variable {α : Type} [Scalar α]

/-- The posterior of a likelihood and a prior, or the first parameter without a prior. -/
def ofParts (likelihood : Likelihood α) (prior : Prior α) :
    Except (PriorError α) (Posterior α) :=
  match h : likelihood.names.find? fun name => !prior.names.contains name with
  | some name => .error (.unknownPrior name)
  | none =>
    .ok ⟨likelihood, prior, fun name hn => by simpa using List.find?_eq_none.mp h name hn⟩

/-- The names of the parameters in the order of a position. -/
def names (t : Posterior α) : List String := t.prior.names

/-- The assignment of a position; `none` if it has not as many values as there are parameters. -/
def parameters? (t : Posterior α) (position : List α) : Option (Assignment α) :=
  if position.length = t.prior.size then some (t.prior.assign position) else none

/-- The log-density of a position under the prior. -/
def logPrior? (t : Posterior α) (position : List α) : Option α := t.prior.logOfValues? position

/-- The log-likelihood of a position; where the likelihood has no value it is the least value. -/
def logLikelihood? (t : Posterior α) (position : List α) : Option α :=
  (t.parameters? position).map fun p =>
    match t.likelihood.logAt p with
    | .ok x => x
    | .error _ => Scalar.negInfinity

/-- The sum of both where the prior is finite, else the least value. -/
def logAt? (t : Posterior α) (position : List α) : Option α := do
  let prior ← t.logPrior? position
  if Scalar.isFinite prior then return prior + (← t.logLikelihood? position)
  else return Scalar.negInfinity

/-- The values of a position in single precision. -/
def widen (position : List Single) : List α := position.map Scalar.ofSingle

/-- The log-density under the prior in single precision. -/
def singlePrior? (t : Posterior α) (position : List Single) : Option Single :=
  (t.logPrior? (widen position)).map Scalar.toSingle

/-- The log-likelihood in single precision. -/
def singleLikelihood? (t : Posterior α) (position : List Single) : Option Single :=
  (t.logLikelihood? (widen position)).map Scalar.toSingle

/-- The sum of both in single precision where the prior is finite, else the least value. -/
def singleAt? (t : Posterior α) (position : List Single) : Option Single := do
  let prior ← t.singlePrior? position
  if prior.isFinite then return prior + (← t.singleLikelihood? position)
  else return Single.negInfinity

end Posterior

end PulseFit
