import PulseFit.Single

/-!
# Scalar — the arithmetic of the model

Rates, likelihoods and priors are computed over any type of numbers with the operations below, so
that one definition is run in floating point and reasoned about in exact numbers.  Comparisons
follow the convention that a value that is not a number is neither below, nor equal to, nor above
any other; `totalLe` is a linear order on all values.
-/

namespace PulseFit

/-- The operations that a model is computed with. -/
class Scalar (α : Type) extends
    Add α, Sub α, Mul α, Div α, Neg α, LT α, LE α, BEq α, OfScientific α where
  decideLT : DecidableLT α
  decideLE : DecidableLE α
  /-- The number of a natural number. -/
  ofNat : Nat → α
  /-- The natural number below a number that is not negative. -/
  toNat : α → Nat
  /-- The whole number below a number. -/
  floor : α → α
  isNaN : α → Bool
  isFinite : α → Bool
  /-- The greatest value. -/
  infinity : α
  /-- The circumference of a circle of diameter one. -/
  pi : α
  /-- A guard for denominators and a floor for rates: the least positive normal number. -/
  tiny : α
  exp : α → α
  ln : α → α
  cos : α → α
  pow : α → α → α
  /-- The Bessel function of the first kind of order zero. -/
  besselJ0 : α → α
  /-- The logarithm of the absolute value of the gamma function. -/
  lnGamma : α → α
  /-- The circular convolution of two arrays of one length, a power of two, times that length. -/
  circular : Array α → Array α → Array α
  /-- A linear order on all values, in which equal values are the same value. -/
  totalLe : α → α → Bool
  /-- The nearest number in single precision. -/
  toSingle : α → Single
  /-- The number of a single-precision number. -/
  ofSingle : Single → α

namespace Scalar

variable {α : Type} [Scalar α]

instance : DecidableLT α := decideLT
instance : DecidableLE α := decideLE

/-- The least value. -/
@[inline] def negInfinity : α := -infinity

/-- The sum of an array by eight running sums.  Eight neighbours at a time go to one running sum
each; the sums are joined pairwise and what is left over is added one by one. -/
def laneSum (xs : Array α) : α :=
  let blocks := xs.size / 8
  let lane (l : Nat) : α := (List.range blocks).foldl (fun s b => s + xs.getD (8 * b + l) 0.0) 0.0
  let joined := (List.range 4).foldl (fun s l => s + (lane l + lane (l + 4))) (0.0 : α)
  (xs.extract (8 * blocks)).foldl (· + ·) joined

/-- The mean of an array, zero for an empty one. -/
def mean (xs : Array α) : α :=
  if xs.isEmpty then 0.0 else laneSum xs / ofNat xs.size

end Scalar

end PulseFit
