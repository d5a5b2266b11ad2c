import PulseFit.BinnedCounts
import PulseFit.Draws
import PulseFit.Key

/-!
# Simulation — counts drawn from a rate

A Poisson count is the number of uniform draws whose running product stays above `exp (-rate)`.
Rates that are not positive give no counts.
-/

namespace PulseFit.Simulation

variable {α : Type} [Scalar α]

/-- No more draws than this go into one count. -/
def drawLimit : Nat := 0x100000

/-- The number of further draws for which the running product `p` stays above `bound`. -/
@[specialize] def countAbove (bound : α) : (limit : Nat) → α → Draws α → Nat × Draws α
  | 0, _, draws => (0, draws)
  | limit + 1, p, draws =>
    if bound < p then
      let (u, draws) := draws.next
      let (k, draws) := countAbove bound limit (p * u) draws
      (k + 1, draws)
    else (0, draws)

/-- A count of a positive rate. -/
@[specialize] def poisson (rate : α) (draws : Draws α) : Nat × Draws α :=
  let (u, draws) := draws.next
  countAbove (Scalar.exp (-rate)) drawLimit u draws

/-- A count for every rate in turn; `none` if a positive rate is infinite. -/
@[specialize] def counts? : List α → Draws α → Option (List α × Draws α)
  | [], draws => some ([], draws)
  | rate :: rest, draws =>
    if 0.0 < rate then
      if Scalar.isFinite rate then do
        let (k, draws) := poisson rate draws
        let (ks, draws) ← counts? rest draws
        some (Scalar.ofNat k :: ks, draws)
      else none
    else do
      let (ks, draws) ← counts? rest draws
      some (0.0 :: ks, draws)

/-- Counts of several channels, the rates of one channel after those of another. -/
@[specialize] def columns? : List (List α) → Draws α → Option (List (List α) × Draws α)
  | [], draws => some ([], draws)
  | rates :: rest, draws => do
    let (column, draws) ← counts? rates draws
    let (columns, draws) ← columns? rest draws
    some (column :: columns, draws)

/-- Counts of all channels in bins, one row for each bin; `rate` gives the rates of a channel at
the left edges of the bins. -/
@[specialize] def burst? (left : List α) (rate : Channel → List α → List α) (draws : Draws α) :
    Option (List (List α) × Draws α) := do
  let (columns, draws) ← columns? (Channel.all.map fun ch => rate ch left) draws
  some ((List.range left.length).map fun i => columns.map (·.getD i 0.0), draws)

/-- The parameters of the example burst: one pulse of rise and decay over a background. -/
def exampleParameters (ch : Channel) : List (Key × α) :=
  let (background, scale) : α × α :=
    match ch with
    | .a => (10.0, 120.0)
    | .b => (15.0, 200.0)
    | .c => (12.0, 150.0)
    | .d => (6.0, 60.0)
  [(.background ch, background), (.shape .start 1 ch, 0.5), (.shape .scale 1 ch, scale),
    (.shape .tau 1 ch, 1.0), (.shape .xi 1 ch, 1.0)]

end PulseFit.Simulation
