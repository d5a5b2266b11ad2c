import PulseFit.Likelihood.Channel
import PulseFit.Quantile

/-!
# Likelihood.Predictive — rates of a sample of assignments

Each assignment of a sample gives a line, its rate in every bin.  Bin by bin the lines have a
median and quantiles; the residuals are what the counts exceed the median by.
-/

namespace PulseFit

/-- The lines of a sample of assignments, their medians, and the counts less the medians. -/
structure Predictive (α : Type) where
  lines : List (Array α)
  median : Array α
  residuals : Array α

namespace Predictive

variable {α : Type} [Scalar α]

/-- The values of all lines in a bin, ascending. -/
def bin (lines : List (Array α)) (i : Nat) : Array α :=
  Quantile.sorted (lines.map (·.getD i 0.0))

/-- The medians of lines of `size` bins. -/
def medians (lines : List (Array α)) (size : Nat) : Array α :=
  Array.ofFn fun (i : Fin size) => (Quantile.median? (bin lines i.val)).getD 0.0

/-- The lines of a sample.  Derived parameters play no part. -/
def ofSample (l : ChannelLikelihood α) (sample : List (Assignment α)) :
    Except (LikelihoodError α) (Predictive α) :=
  if sample.isEmpty then .error .emptyPosterior
  else do
    let lines ← sample.mapM fun p => l.rate p.withoutConstraints
    let median := medians lines l.size
    return { lines, median, residuals := l.counts.zipWith (· - ·) median }

/-- The quantile of the lines in every bin; `none` if there are bins and `q` is no fraction. -/
def quantile? (r : Predictive α) (q : α) : Option (Array α) :=
  ((List.range r.median.size).mapM fun i => Quantile.quantile? (bin r.lines i) q).map
    List.toArray

end Predictive

end PulseFit
