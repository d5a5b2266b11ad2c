import PulseFit.BinnedCounts.Json
import PulseFit.Csv
import PulseFit.Likelihood.Joint
import PulseFit.Likelihood.Predictive
import PulseFit.Model.Json
import PulseFit.Prior.Json
import PulseFit.Sampler
import PulseFit.Sampler.Tally
import PulseFit.Scalar.Double
import PulseFit.Simulation
import PulseFit.Proofs.Model.Reading
import PulseFit.Proofs.Model.Indices
import PulseFit.Proofs.Model.Lists
import PulseFit.Proofs.Model.Grammar
import PulseFit.Proofs.Key
import PulseFit.Proofs.Model.RoundTrip
import PulseFit.Proofs.Assignment
import PulseFit.Proofs.Coverage
import PulseFit.Proofs.Naming
import PulseFit.Proofs.Scalar.Double
import PulseFit.Proofs.Scalar.Reals
import PulseFit.Proofs.Rate.Component
import PulseFit.Proofs.Likelihood.Rate
import PulseFit.Proofs.Prior.Overwrite
import PulseFit.Proofs.Prior.Lookup
import PulseFit.Proofs.Prior.Steps
import PulseFit.Proofs.Prior.Constraints
import PulseFit.Proofs.Prior.Sorting
import PulseFit.Proofs.Prior.Chains
import PulseFit.Proofs.Prior.Sampling
import PulseFit.Proofs.Prior.Drawing
import PulseFit.Proofs.Model.Renumbering
import PulseFit.Proofs.Likelihood.Renumbering
import PulseFit.Proofs.Prior.Renumbering
import PulseFit.Proofs.Prior.Support
import PulseFit.Proofs.Likelihood.Positive
import PulseFit.Proofs.Likelihood.Dependence
import PulseFit.Proofs.Likelihood.Interference
import PulseFit.Proofs.Prior.Reordering
import PulseFit.Proofs.Likelihood.Reordering
import PulseFit.Proofs.Reordering
import PulseFit.Proofs.Rate.Delay
import PulseFit.Proofs.Likelihood.Delay
import PulseFit.Proofs.Likelihood.Outcome
import PulseFit.Proofs.Likelihood.Memory
import PulseFit.Proofs.Model.Faults
import PulseFit.Proofs.Model.Filling
import PulseFit.Proofs.Model.Record
import PulseFit.Proofs.Prior.Attempts
import PulseFit.Proofs.Prior.Checks
import PulseFit.Proofs.Prior.Density
import PulseFit.Proofs.Quantile
import PulseFit.Proofs.Scalar.Infinities
import PulseFit.Proofs.Scalar.Rounding
import PulseFit.Proofs.Posterior
import PulseFit.Proofs.Prior.Validation
import PulseFit.Proofs.Prior.Ranges
import PulseFit.Proofs.Likelihood.Predictive
import PulseFit.Proofs.Rate.Peak
import PulseFit.Proofs.Single
import PulseFit.Proofs.Sampler.Tally
import PulseFit.Proofs.Ensemble
import PulseFit.Proofs.Scalar.Nearest
import PulseFit.Proofs.Sampler.Narrowing
import PulseFit.Proofs.Decimal
import PulseFit.Proofs.Json
import PulseFit.Proofs.BinnedCounts
import PulseFit.Proofs.BinnedCounts.Json
