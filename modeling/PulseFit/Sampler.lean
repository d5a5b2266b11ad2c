import PulseFit.Ensemble
import PulseFit.Json.Fields
import PulseFit.Posterior
import PulseFit.Prior.Sampling

/-!
# Sampler — samples of a posterior

Walkers start at draws from the prior, narrowed to single precision, and move as an ensemble.  All
their positions form the chain; the best of them is the first with the greatest log-density.
-/

namespace PulseFit

/-- Why a sampler has no result. -/
inductive SamplerError (α : Type) where
  | prior (error : PriorError α)
  | ensemble (error : Ensemble.Error)
  | noFiniteSample

namespace SamplerError

/-- The wording of the error. -/
def message : SamplerError Float → String
  | prior error => error.message
  | ensemble error => "emcee sampler failed: " ++ error.message
  | noFiniteSample => "sampler produced no finite posterior value"

end SamplerError

/-- The number of walkers and of steps. -/
structure Sampler where
  walkers : Nat := 64
  iterations : Nat := 128
  deriving DecidableEq, Repr

namespace Sampler

/-- The result of a run. -/
structure Result (α : Type) where
  /-- The position with the greatest log-density. -/
  best : Assignment α
  bestLogPosterior : α
  /-- The positions of all walkers, step by step. -/
  chain : List (Assignment α)

variable {α : Type} [Scalar α]

/-- Steps towards the middle of the support that narrowing may take. -/
def narrowingSteps : Nat := 4

/-- Steps a number up or down until it has a finite density. -/
def stepInside (m : Marginal α) (up : Bool) : (steps : Nat) → Single → Single
  | 0, x => x
  | steps + 1, x =>
    if Scalar.isFinite (m.logAt (Scalar.ofSingle x)) then x
    else stepInside m up steps (x.next up)

/-- A value in single precision.  Where rounding has left the support, the number steps back: up
in the lower half of the support, down in the upper. -/
def narrow (m : Marginal α) (x : α) : Single :=
  let (left, right) := m.support
  stepInside m (x < 0.5 * (left + right)) narrowingSteps (Scalar.toSingle x)

/-- A drawn position in single precision. -/
def narrowAll (r : Prior α) (values : List α) : List Single :=
  values.zipWith (fun x e => narrow e.marginal x) r.entries

/-- The better of the best walker so far and another: the other if its log-density is greater. -/
def better (best : Option Walker) (w : Walker) : Option Walker :=
  if Single.lt ((best.map (·.logDensity)).getD Single.negInfinity) w.logDensity then some w
  else best

/-- The best of walkers that come one after another. -/
def bestOf (walkers : List Walker) : Option Walker := walkers.foldl better none

/-- The result of an ensemble's history. -/
def record (t : Posterior α) (history : List (List Walker)) :
    Except (SamplerError α) (Result α) :=
  let assign (w : Walker) : Assignment α := t.prior.assign (Posterior.widen w.position)
  match bestOf history.flatten with
  | none => .error .noFiniteSample
  | some w =>
    if w.logDensity.isFinite then
      .ok {
        best := assign w
        bestLogPosterior := Scalar.ofSingle w.logDensity
        chain := history.flatten.map assign }
    else .error .noFiniteSample

/-- The log-density that the walkers see. -/
def density (t : Posterior α) (position : List Single) : Single :=
  (t.singleAt? position).getD Single.negInfinity

/-- Runs the sampler over an ensemble, which takes starting positions to the walkers after each
step. -/
def runOver (s : Sampler) (t : Posterior α) (starts : Draws α)
    (ensemble : List (List Single) → Except Ensemble.Error (List (List Walker))) :
    Except (SamplerError α) (Result α) :=
  match (t.prior.drawMany s.walkers starts).1 with
  | .error error => .error (.prior error)
  | .ok values =>
    match ensemble (values.map (narrowAll t.prior)) with
    | .error error => .error (.ensemble error)
    | .ok history => record t history

/-- Runs the sampler.  The starting positions come from one stream of draws, the moves from
another. -/
def run (s : Sampler) (t : Posterior α) (starts moves : Draws α) :
    Except (SamplerError α) (Result α) :=
  s.runOver t starts fun positions =>
    Ensemble.run (density t) t.prior.size s.iterations positions moves

/-- Reads the numbers of walkers and steps. -/
def ofJson? (v : Json.Value) : Option Sampler := do
  match ← Json.allFields? ["nwalkers", "niterations"] v with
  | [walkers, iterations] =>
    some { walkers := ← Json.natural? 32 walkers, iterations := ← Json.natural? 32 iterations }
  | _ => none

/-- The record of the numbers of walkers and steps. -/
def toJson (s : Sampler) : Json.Value :=
  .record [("nwalkers", .ofNat s.walkers), ("niterations", .ofNat s.iterations)]

end Sampler

end PulseFit
