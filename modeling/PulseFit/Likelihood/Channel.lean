import PulseFit.Assignment
import PulseFit.BinnedCounts
import PulseFit.Decimal.Shortest
import PulseFit.Model
import PulseFit.Rate.Convolution

/-!
# Likelihood.Channel — Poisson likelihood of the counts of one channel

The rate is the sum over all components of a model and the background.  A lens adds every
component once more, its time delayed and its rate magnified.  A sum that is negative anywhere
stands for no rate at all and is replaced by zeros.
-/

namespace PulseFit

/-- Why a likelihood has no value. -/
inductive LikelihoodError (α : Type) where
  | missingParameter (name : String)
  | negativeRate (index : Nat) (value : α)
  | nonFiniteRate (index : Nat)
  | lengthMismatch (times counts : Nat)
  | noChannels
  | emptyPosterior

namespace LikelihoodError

/-- The wording of the error. -/
def message : LikelihoodError Float → String
  | missingParameter name => "parameter '" ++ name ++ "' is missing from the assignment"
  | negativeRate index value =>
    "Poisson rate function returns a negative value " ++ Decimal.shortest value ++ " at bin " ++
      toString index
  | nonFiniteRate index =>
    "Poisson rate function returns a non-finite value at bin " ++ toString index
  | lengthMismatch times counts =>
    "time array length " ++ toString times ++ " differs from the counts array length " ++
      toString counts
  | noChannels => "joint likelihood needs at least one channel"
  | emptyPosterior => "posterior predictive needs at least one sample"

end LikelihoodError

/-- What a sampler needs of a likelihood: the names of the parameters it reads and its logarithm
at an assignment. -/
structure Likelihood (α : Type) where
  names : List String
  logAt : Assignment α → Except (LikelihoodError α) α

/-- A model for the counts of one channel. -/
structure ChannelLikelihood (α : Type) where
  model : Model
  channel : Channel
  times : Array α
  counts : Array α
  size_eq : counts.size = times.size

namespace ChannelLikelihood

variable {α : Type} [Scalar α]

/-- The likelihood of counts at times, which have to be as many. -/
def ofCounts (times counts : Array α) (model : Model) (channel : Channel) :
    Except (LikelihoodError α) (ChannelLikelihood α) :=
  if h : counts.size = times.size then .ok ⟨model, channel, times, counts, h⟩
  else .error (.lengthMismatch times.size counts.size)

/-- The likelihood of a channel of a series, whose rates are taken at the left edges. -/
def ofSeries? (b : BinnedCounts α) (model : Model) (channel : Channel) :
    Option (Except (LikelihoodError α) (ChannelLikelihood α)) :=
  (b.counts? channel).map fun counts => ofCounts b.left counts model channel

/-- The number of bins. -/
def size (l : ChannelLikelihood α) : Nat := l.times.size

/-- The keys of a component of a pulse. -/
def componentKeys (channel : Channel) (term : Component × Nat) : List Key :=
  term.1.quantities.map fun q => .shape q term.2 channel

/-- Every parameter that the rate depends on, in the order in which they are looked up. -/
def required (l : ChannelLikelihood α) : List Key :=
  (if l.model.lensed then LensQuantity.all.map Key.lens else []) ++ .background l.channel ::
    l.model.components.flatMap (componentKeys l.channel)

/-- The value of a parameter. -/
def lookup (p : Assignment α) (k : Key) : Except (LikelihoodError α) α :=
  match p[k.text]? with
  | some x => .ok x
  | none => .error (.missingParameter k.text)

/-- Delay and magnification of a lens. -/
structure Lens (α : Type) where
  delay : α
  magnification : α

/-- The lens of a lensed model. -/
def lens? (l : ChannelLikelihood α) (p : Assignment α) :
    Except (LikelihoodError α) (Option (Lens α)) :=
  if l.model.lensed then do
    let delay ← lookup p (.lens .timeDelay)
    let magnification ← lookup p (.lens .magnificationRatio)
    return some ⟨delay, magnification⟩
  else return none

/-- A sum that broke off at a missing parameter. -/
structure Interrupted (α : Type) where
  sum : Array α
  error : LikelihoodError α

/-- Marks a failure with the sum at which it happened. -/
def marked {β : Type} (sum : Array α) : Except (LikelihoodError α) β → Except (Interrupted α) β
  | .ok x => .ok x
  | .error error => .error ⟨sum, error⟩

/-- Adds a component to a sum, `factor` times. -/
@[specialize] def addTimes (l : ChannelLikelihood α) (c : Component) (values : List α) (factor : α)
    (sum : Array α) : Array α :=
  (Rate.addComponent? c values l.times factor sum).getD sum

/-- The most quantities that a component has. -/
def bufferSize : Nat := 6

/-- A summation under way: a buffer for the values of a component, in which those of the last one
still stand, and the sum so far. -/
structure Summation (α : Type) where
  buffer : List α
  sum : Array α

/-- Writes the values of keys over the front of a buffer. -/
def load (p : Assignment α) : List Key → List α → Except (LikelihoodError α) (List α)
  | k :: keys, _ :: buffer => do
    let x ← lookup p k
    let rest ← load p keys buffer
    return x :: rest
  | _, buffer => .ok buffer

/-- Adds the component whose values stand in the buffer, and its lensed image.  For the image the
time in the buffer is delayed in place. -/
@[specialize] def addTerm (l : ChannelLikelihood α) (lens : Option (Lens α)) (c : Component)
    (s : Summation α) : Summation α :=
  let count := c.quantities.length
  let sum := l.addTimes c (s.buffer.take count) 1.0 s.sum
  match lens with
  | none => ⟨s.buffer, sum⟩
  | some lens =>
    let buffer := s.buffer.modify c.timeIndex (· + lens.delay)
    ⟨buffer, l.addTimes c (buffer.take count) lens.magnification sum⟩

/-- Looks up the values of a component and adds it to a sum. -/
@[specialize] def sumTerm (l : ChannelLikelihood α) (p : Assignment α) (lens : Option (Lens α))
    (s : Summation α) (term : Component × Nat) : Except (Interrupted α) (Summation α) := do
  let buffer ← marked s.sum (load p (componentKeys l.channel term) s.buffer)
  return l.addTerm lens term.1 ⟨buffer, s.sum⟩

/-- The sum of all components and the background. -/
@[specialize] def sum (l : ChannelLikelihood α) (p : Assignment α) :
    Except (Interrupted α) (Array α) := do
  let zeros := Array.replicate l.size (0.0 : α)
  let lens ← marked zeros (l.lens? p)
  let background ← marked zeros (lookup p (.background l.channel))
  let start : Summation α := ⟨List.replicate bufferSize 0.0, zeros⟩
  let final ← l.model.components.foldlM (l.sumTerm p lens) start
  return final.sum.map (· + background)

/-- Zeros in place of a rate that is negative somewhere. -/
@[specialize] def clip (rate : Array α) : Array α :=
  if rate.any fun x => x < 0.0 then rate.map fun _ => 0.0 else rate

/-- The rate of an assignment. -/
@[specialize] def rate (l : ChannelLikelihood α) (p : Assignment α) :
    Except (LikelihoodError α) (Array α) :=
  match l.sum p with
  | .ok sum => .ok (clip sum)
  | .error stop => .error stop.error

/-- The rate written over an array of the same size: the array afterwards and the error, if there
is one; `none` for an array of another size. -/
@[specialize] def overwrite? (l : ChannelLikelihood α) (p : Assignment α) (out : Array α) :
    Option (Array α × Option (LikelihoodError α)) :=
  if out.size = l.size then
    match l.sum p with
    | .ok sum => some (clip sum, none)
    | .error stop => some (stop.sum, some stop.error)
  else none

/-- The first bin, from bin `i` on, at which a rate cannot be that of a Poisson law. -/
@[specialize] def badBin? (i : Nat) : List α → Option (LikelihoodError α)
  | [] => none
  | x :: rest =>
    if !Scalar.isFinite x then some (.nonFiniteRate i)
    else if x < 0.0 then some (.negativeRate i x)
    else badBin? (i + 1) rest

/-- The logarithm of the probability of the counts, added bin by bin. -/
@[specialize] def logSum (rate counts : List α) : α :=
  (rate.zip counts).foldl
    (fun acc (r, y) => acc - r + y * Scalar.ln r - Scalar.lnGamma (y + 1.0)) 0.0

/-- The log-likelihood of a rate with as many bins as the counts. -/
@[specialize] def logOfRate (l : ChannelLikelihood α) (rate : Array α) :
    Except (LikelihoodError α) α :=
  match badBin? 0 rate.toList with
  | some error => .error error
  | none =>
    if rate.any (· == 0.0) then .ok Scalar.negInfinity
    else .ok (logSum rate.toList l.counts.toList)

/-- The log-likelihood of a rate; `none` if it has not as many bins as the counts. -/
def logOfRate? (l : ChannelLikelihood α) (rate : Array α) :
    Option (Except (LikelihoodError α) α) :=
  if rate.size = l.counts.size then some (l.logOfRate rate) else none

/-- The log-likelihood of an assignment. -/
@[specialize] def logAt (l : ChannelLikelihood α) (p : Assignment α) :
    Except (LikelihoodError α) α :=
  l.rate p >>= l.logOfRate

/-- The log-likelihood of an assignment in a buffer that is kept from call to call: the buffer
afterwards, and the value or the error; `none` for a buffer of another size. -/
def logAtIn? (l : ChannelLikelihood α) (p : Assignment α) (buffer : Array α) :
    Option (Array α × Except (LikelihoodError α) α) := do
  let (rate, error?) ← l.overwrite? p buffer
  match error? with
  | some error => return (rate, .error error)
  | none => return (rate, ← l.logOfRate? rate)

/-- The likelihood as a sampler sees it. -/
def toLikelihood (l : ChannelLikelihood α) : Likelihood α :=
  ⟨l.required.map Key.text, l.logAt⟩

end ChannelLikelihood

end PulseFit
