import PulseFit.Likelihood.Channel

/-!
# Likelihood.Joint — several channels under one assignment

The logarithms of the channels are added.  The channels share the parameters of the lens and no
others.
-/

namespace PulseFit

/-- Likelihoods of at least one channel. -/
structure JointLikelihood (α : Type) where
  channels : List (ChannelLikelihood α)
  channels_ne_nil : channels ≠ []

namespace JointLikelihood

variable {α : Type} [Scalar α]

/-- The joint likelihood of channels, of which there has to be one. -/
def ofChannels (channels : List (ChannelLikelihood α)) :
    Except (LikelihoodError α) (JointLikelihood α) :=
  if h : channels = [] then .error .noChannels else .ok ⟨channels, h⟩

/-- The likelihoods of channels of a series, up to the first that has none. -/
def channelsOfSeries? (b : BinnedCounts α) (model : Model) :
    List Channel → Option (Except (LikelihoodError α) (List (ChannelLikelihood α)))
  | [] => some (.ok [])
  | ch :: rest =>
    match ChannelLikelihood.ofSeries? b model ch with
    | none => none
    | some (.error error) => some (.error error)
    | some (.ok l) => (channelsOfSeries? b model rest).map fun ls => (l :: ·) <$> ls

/-- The joint likelihood of channels of a series. -/
def ofSeries? (b : BinnedCounts α) (model : Model) (channels : List Channel) :
    Option (Except (LikelihoodError α) (JointLikelihood α)) :=
  (channelsOfSeries? b model channels).map (· >>= ofChannels)

/-- The sum of the log-likelihoods, or the error of the first channel that has none. -/
def logAt (j : JointLikelihood α) (p : Assignment α) : Except (LikelihoodError α) α :=
  j.channels.foldlM (fun acc l => (acc + ·) <$> l.logAt p) 0.0

/-- Every parameter that a channel depends on, each once, in the order of the channels. -/
def required (j : JointLikelihood α) : List Key :=
  (j.channels.flatMap (·.required)).eraseDups

/-- The likelihood as a sampler sees it. -/
def toLikelihood (j : JointLikelihood α) : Likelihood α :=
  ⟨j.required.map Key.text, j.logAt⟩

end JointLikelihood

end PulseFit
