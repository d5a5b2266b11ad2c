import PulseFit.Sampler

/-!
# Sampler.Tally — walkers that are recorded as they come

An ensemble shows its walkers after each step and keeps none of them.  A tally takes them one by
one: it adds every position to the chain and keeps a copy of the values of the best walker so far,
which are no values at all at first.  A position becomes an assignment only if it has a value for
each parameter; one that has not stops the run.
-/

namespace PulseFit

/-- What is kept of the walkers so far. -/
structure Tally (α : Type) where
  /-- The values of the best walker. -/
  best : List α
  bestLog : Single
  chain : Array (Assignment α)

namespace Tally

variable {α : Type}

/-- The tally before the first walker. -/
def empty : Tally α := ⟨[], Single.negInfinity, #[]⟩

variable [Scalar α]

/-- Takes a walker; `none` if its position has not as many values as there are parameters. -/
def note? (t : Posterior α) (tally : Tally α) (w : Walker) : Option (Tally α) := do
  let values := Posterior.widen w.position
  let tally :=
    if Single.lt tally.bestLog w.logDensity then
      { tally with best := values, bestLog := w.logDensity }
    else tally
  return { tally with chain := tally.chain.push (← t.parameters? values) }

/-- Takes all walkers of a step. -/
def noteAll? (t : Posterior α) (tally : Tally α) (step : List Walker) : Option (Tally α) :=
  step.foldlM (note? t) tally

/-- Takes the walkers of all steps. -/
def ofHistory? (t : Posterior α) (history : List (List Walker)) : Option (Tally α) :=
  history.foldlM (noteAll? t) empty

/-- The result; `none` if the best values are not as many as there are parameters. -/
def close? (t : Posterior α) (tally : Tally α) :
    Option (Except (SamplerError α) (Sampler.Result α)) :=
  if tally.bestLog.isFinite then do
    return .ok {
      best := ← t.parameters? tally.best
      bestLogPosterior := Scalar.ofSingle tally.bestLog
      chain := tally.chain.toList }
  else return .error .noFiniteSample

end Tally

variable {α : Type} [Scalar α]

/-- Runs the sampler over an ensemble and records its walkers in a tally. -/
def Sampler.runIn? (s : Sampler) (t : Posterior α) (starts : Draws α)
    (ensemble : List (List Single) → Except Ensemble.Error (List (List Walker))) :
    Option (Except (SamplerError α) (Sampler.Result α)) :=
  match (t.prior.drawMany s.walkers starts).1 with
  | .error error => some (.error (.prior error))
  | .ok values =>
    match ensemble (values.map (narrowAll t.prior)) with
    | .error error => some (.error (.ensemble error))
    | .ok history => Tally.ofHistory? t history >>= Tally.close? t

end PulseFit
