import PulseFit.Scalar

/-!
# Prior.Marginal — distributions of one parameter

A parameter is uniform on an interval, or its logarithm is.  A distribution keeps the logarithm of
its density, so that evaluating it takes one comparison and at most one subtraction.
-/

namespace PulseFit

/-- The distribution of one parameter. -/
inductive Marginal (α : Type) where
  /-- Uniform from `left` to `right`. -/
  | uniform (left right logDensity : α)
  /-- The logarithm is uniform from `lnLeft` to `lnRight`. -/
  | logUniform (lnLeft lnRight logDensity : α)
  deriving Repr

namespace Marginal

variable {α : Type} [Scalar α]

open Scalar (exp ln isNaN negInfinity)

/-- The logarithm of the density of a uniform distribution on an interval of this length. -/
@[inline] def logDensityOf (length : α) : α := -ln length

/-- The uniform distribution; `none` if the logarithm of its density is no number. -/
def uniform? (left right : α) : Option (Marginal α) :=
  let logDensity := logDensityOf (right - left)
  if isNaN left || isNaN right || isNaN logDensity then none
  else some (.uniform left right logDensity)

/-- The log-uniform distribution; `none` unless `left` is below `right` and all logarithms are
numbers. -/
def logUniform? (left right : α) : Option (Marginal α) :=
  let lnLeft := ln left
  let lnRight := ln right
  let logDensity := logDensityOf (lnRight - lnLeft)
  if left < right && !isNaN lnLeft && !isNaN lnRight && !isNaN logDensity then
    some (.logUniform lnLeft lnRight logDensity)
  else none

/-- The logarithm of the density. -/
@[specialize] def logAt : Marginal α → α → α
  | uniform left right logDensity, x =>
    if left ≤ x ∧ x ≤ right then logDensity else negInfinity
  | logUniform lnLeft lnRight logDensity, x =>
    let lnX := ln x
    if lnLeft ≤ lnX ∧ lnX ≤ lnRight then logDensity - lnX else negInfinity

/-- The value at a fraction `u` of the interval. -/
@[specialize] def draw : Marginal α → α → α
  | uniform left right _, u => left + u * (right - left)
  | logUniform lnLeft lnRight _, u => exp (lnLeft + u * (lnRight - lnLeft))

/-- The ends of the interval of possible values. -/
def support : Marginal α → α × α
  | uniform left right _ => (left, right)
  | logUniform lnLeft lnRight _ => (exp lnLeft, exp lnRight)

/-- Whether two distributions are of one kind with equal parameters. -/
def same : Marginal α → Marginal α → Bool
  | uniform l r d, uniform l' r' d' => l == l' && r == r' && d == d'
  | logUniform l r d, logUniform l' r' d' => l == l' && r == r' && d == d'
  | _, _ => false

end Marginal

end PulseFit
