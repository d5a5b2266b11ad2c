import PulseFit.Scalar

/-!
# Quantile — order statistics of a sample

A sample is sorted by the linear order on all values, so its order statistics do not depend on the
order in which it was given.  Quantiles between neighbours are interpolated linearly, with the
`k`-th of `n` values at `(k - 1/2) / n`.  Reading a place that the sample does not have gives
`none`.
-/

namespace PulseFit.Quantile

variable {α : Type} [Scalar α]

/-- The values in ascending order. -/
@[specialize] def sorted (xs : List α) : Array α := (xs.mergeSort Scalar.totalLe).toArray

/-- The first value of a sorted sample. -/
def minimum? (s : Array α) : Option α := s[0]?

/-- The last value of a sorted sample. -/
def maximum? (s : Array α) : Option α := s[s.size - 1]?

/-- The middle value of a sorted sample, or the mean of the two middle values. -/
def median? (s : Array α) : Option α :=
  if s.isEmpty then none
  else
    let i := (s.size - 1) / 2
    if s.size % 2 = 0 then do
      let x ← s[i]?
      let y ← s[i + 1]?
      return 0.5 * (x + y)
    else s[i]?

/-- The quantile of a sorted sample for a fraction between zero and one. -/
def quantile? (s : Array α) (q : α) : Option α :=
  if s.isEmpty then none
  else if 0.0 ≤ q ∧ q ≤ 1.0 then
    let h := Scalar.ofNat s.size * q - 0.5
    let below := Scalar.floor h
    let i := Scalar.toNat below
    if below < 0.0 then minimum? s
    else if s.size - 1 ≤ i then maximum? s
    else do
      let x ← s[i]?
      let y ← s[i + 1]?
      return x + (h - below) * (y - x)
  else none

end PulseFit.Quantile
