import PulseFit.Likelihood.Channel

/-!
# Likelihood.Memory — evaluations in memory that is used again

A likelihood keeps the array of its rate from one evaluation to the next, and convolutions keep
buffers of their own, which all likelihoods share.  `rateIn` works in such memory step by step: it
clears the array, looks parameters up as it goes and adds to the array in place, so an evaluation
that lacks a parameter leaves a sum half finished.
-/

namespace PulseFit

/-- Adds `factor` times the rate of a component to `out`, with the buffers that an earlier
convolution has kept. -/
@[specialize] def Rate.addComponentIn? {α : Type} [Scalar α] (kept : Option (Workspace α))
    (c : Component) (values : List α) (times : Array α) (factor : α) (out : Array α) :
    Option (Array α × Option (Workspace α)) :=
  match c, values with
  | .pulse .convolution, [start, scale, sigma, tau] =>
    let middle := Scalar.mean times
    let kernel := times.map (gaussian middle 1.0 sigma)
    let tail := times.map (decay tau start)
    addConvolutionIn? kept kernel tail (factor * scale) out
  | _, _ => (addComponent? c values times factor out).map (·, kept)

namespace ChannelLikelihood

variable {α : Type}

/-- What an evaluation works in: the array of the rate and the buffers of convolutions. -/
structure Memory (α : Type) where
  rate : Array α
  kept : Option (Rate.Workspace α)

/-- A computation in memory.  One that fails leaves the memory as it is at that point. -/
abbrev InMemory (α β : Type) := EStateM (LikelihoodError α) (Memory α) β

/-- Changes the array of the rate. -/
def modifyRate (f : Array α → Array α) : InMemory α Unit :=
  modify fun m => { m with rate := f m.rate }

variable [Scalar α]

/-- Adds a component to the rate, `factor` times. -/
def addTimesIn (l : ChannelLikelihood α) (c : Component) (values : List α) (factor : α) :
    InMemory α Unit :=
  modify fun m =>
    ((Rate.addComponentIn? m.kept c values l.times factor m.rate).map fun r => ⟨r.1, r.2⟩).getD m

/-- Adds the component whose values stand in a buffer, and its lensed image.  For the image the
time in the buffer is delayed in place. -/
def addTermIn (l : ChannelLikelihood α) (lens : Option (Lens α)) (c : Component)
    (buffer : List α) : InMemory α (List α) := do
  let count := c.quantities.length
  l.addTimesIn c (buffer.take count) 1.0
  match lens with
  | none => return buffer
  | some lens =>
    let buffer := buffer.modify c.timeIndex (· + lens.delay)
    l.addTimesIn c (buffer.take count) lens.magnification
    return buffer

/-- Looks up the values of a component and adds it to the rate. -/
def sumTermIn (l : ChannelLikelihood α) (p : Assignment α) (lens : Option (Lens α))
    (buffer : List α) (term : Component × Nat) : InMemory α (List α) := do
  let buffer ← MonadExcept.ofExcept (load p (componentKeys l.channel term) buffer)
  l.addTermIn lens term.1 buffer

/-- Writes the rate of an assignment over the array, which has an entry for each time. -/
def rateIn (l : ChannelLikelihood α) (p : Assignment α) : InMemory α Unit := do
  modifyRate (·.map fun _ => 0.0)
  let lens ← MonadExcept.ofExcept (l.lens? p)
  let background ← MonadExcept.ofExcept (lookup p (.background l.channel))
  discard <| l.model.components.foldlM (l.sumTermIn p lens) (List.replicate bufferSize 0.0)
  modifyRate (·.map (· + background))
  modifyRate clip

/-- The log-likelihood of an assignment. -/
def logIn (l : ChannelLikelihood α) (p : Assignment α) : InMemory α α := do
  l.rateIn p
  MonadExcept.ofExcept (l.logOfRate (← get).rate)

/-- Evaluates an assignment in the array that the likelihood has kept, or else in a new one. -/
def evaluate (l : ChannelLikelihood α) (p : Assignment α) (array : Option (Array α))
    (kept : Option (Rate.Workspace α)) : EStateM.Result (LikelihoodError α) (Memory α) α :=
  l.logIn p ⟨array.getD (Array.replicate l.size 0.0), kept⟩

end ChannelLikelihood

end PulseFit
