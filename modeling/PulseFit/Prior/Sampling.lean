import PulseFit.Draws
import PulseFit.Prior

/-!
# Prior.Sampling — draws that keep the order

All parameters are drawn independently.  A chain whose members have one distribution is then
sorted, which gives a draw from the ordered distribution.  If some chain still does not hold, all
parameters are drawn again, up to a number of attempts.
-/

namespace PulseFit.Prior

variable {α : Type} [Scalar α]

/-- Whether all members of a chain have the same distribution. -/
def exchangeable (entries : List (Entry α)) (c : Chain α) : Bool :=
  match c.members.filterMap (entries[·]?) with
  | [] => true
  | e :: rest => rest.all (e.marginal.same ·.marginal)

/-- A value for every entry, one random number each. -/
@[specialize] def drawEntries : List (Entry α) → Draws α → List α × Draws α
  | [], draws => ([], draws)
  | e :: rest, draws =>
    let (u, draws) := draws.next
    let (xs, draws) := drawEntries rest draws
    (e.marginal.draw u :: xs, draws)

/-- Values with the given chains sorted, one after the other. -/
def sortChains (chains : List (Chain α)) (values : List α) : List α :=
  chains.foldl (fun values c => c.sort values) values

/-- Values that keep the order, from at most `attempts` attempts. -/
def attempt (r : Prior α) (sortable : List (Chain α)) :
    (attempts : Nat) → Draws α → Option (List α) × Draws α
  | 0, draws => (none, draws)
  | attempts + 1, draws =>
    let (xs, draws) := drawEntries r.entries draws
    let xs := sortChains sortable xs
    if r.ordered xs then (some xs, draws) else attempt r sortable attempts draws

/-- A draw of values in the order of the entries. -/
def drawValues (r : Prior α) (draws : Draws α) : Except (PriorError α) (List α) × Draws α :=
  let (xs?, draws) := attempt r (r.chains.filter (exchangeable r.entries)) r.attempts draws
  match xs? with
  | some xs => (.ok xs, draws)
  | none => (.error (.rejectionLimit r.attempts), draws)

/-- A draw of an assignment. -/
def draw (r : Prior α) (draws : Draws α) : Except (PriorError α) (Assignment α) × Draws α :=
  let (xs, draws) := r.drawValues draws
  (r.assign <$> xs, draws)

/-- Several draws of values, up to the first that fails. -/
def drawMany (r : Prior α) : (n : Nat) → Draws α → Except (PriorError α) (List (List α)) × Draws α
  | 0, draws => (.ok [], draws)
  | n + 1, draws =>
    match r.drawValues draws with
    | (.error error, draws) => (.error error, draws)
    | (.ok xs, draws) =>
      let (rest, draws) := drawMany r n draws
      ((xs :: ·) <$> rest, draws)

end PulseFit.Prior
