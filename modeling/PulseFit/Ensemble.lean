import PulseFit.Draws
import PulseFit.Single

/-!
# Ensemble — walkers that move along each other

Each walker proposes a point on the line through its own position and that of a walker of the
other half, and moves there with a probability that leaves the target distribution unchanged.  The
two halves move in turn.  A walker whose partner stands at the same place stays.
-/

namespace PulseFit

/-- A position and its log-density. -/
structure Walker where
  position : List Single
  logDensity : Single
  deriving DecidableEq, Repr

namespace Ensemble

/-- Why an ensemble cannot be set up or moved. -/
inductive Error where
  | oddWalkers
  | fewWalkers
  | infinitePosition
  | undefinedPosition
  | undefinedDensity
  deriving DecidableEq, Repr

/-- The wording of the error. -/
def Error.message : Error → String
  | oddWalkers => "invalid inputs: 'the number of walkers must be even'"
  | fewWalkers =>
    "invalid inputs: 'the number of walkers should be more than twice the dimension of your " ++
      "parameter space'"
  | infinitePosition => "At least one parameter value was infinite"
  | undefinedPosition => "At least one parameter value was NaN"
  | undefinedDensity => "NaN value of lnprob"

/-- Whether so many walkers can explore so many dimensions. -/
def check (walkers dimension : Nat) : Except Error Unit :=
  if walkers % 2 ≠ 0 then .error .oddWalkers
  else if walkers ≤ 2 * dimension then .error .fewWalkers
  else .ok ()

/-- A walker at a position, which has to be finite and to have a density. -/
def place (density : List Single → Single) (position : List Single) : Except Error Walker :=
  if position.any Single.isInfinite then .error .infinitePosition
  else if position.any Single.isNaN then .error .undefinedPosition
  else
    let logDensity := density position
    if logDensity.isNaN then .error .undefinedDensity else .ok ⟨position, logDensity⟩

/-- The number one. -/
def one : Single := ⟨0x3F800000⟩

/-- The number one half. -/
def half : Single := ⟨0x3F000000⟩

/-- The stretch of a uniform draw: `(u + 1)² / 2`, between one half and two. -/
def stretch (u : Single) : Single := (u + one) * (u + one) * half

/-- The point that divides the line from a partner through a walker at a stretch. -/
def proposal (partner walker : List Single) (z : Single) : List Single :=
  partner.zipWith (fun c x => c - z * (c - x)) walker

/-- Whether a walker accepts a move: the gain in log-density, with the stretch once for each
dimension but one, exceeds the logarithm of a uniform draw. -/
def accepts (dimension : Nat) (z u : Single) (new old : Single) : Bool :=
  let power := (List.replicate (dimension - 1) z.ln).foldl (· + ·) ⟨0⟩
  Single.lt u.ln (power + new - old)

variable {α : Type} [Scalar α]

/-- The next draw in single precision. -/
def nextSingle (draws : Draws α) : Single × Draws α :=
  (Scalar.toSingle draws.next.1, draws.next.2)

/-- A walker of the other half, which is not empty. -/
def partner (others : Array Walker) (fallback : Walker) (draws : Draws α) : Walker × Draws α :=
  let (u, draws) := draws.next
  (others.getD (Scalar.toNat (Scalar.floor (Scalar.ofNat others.size * u))) fallback, draws)

/-- Moves a walker along a partner. -/
def move (density : List Single → Single) (dimension : Nat) (others : Array Walker) (w : Walker)
    (draws : Draws α) : Except Error (Walker × Draws α) := do
  let (u, draws) := nextSingle draws
  let (c, draws) := partner others w draws
  let (v, draws) := nextSingle draws
  let z := stretch u
  let candidate ← place density (proposal c.position w.position z)
  return (if accepts dimension z v candidate.logDensity w.logDensity then candidate else w, draws)

/-- Moves the walkers of one half along those of the other. -/
def moveAll (density : List Single → Single) (dimension : Nat) (others : Array Walker) :
    List Walker → Draws α → Except Error (List Walker × Draws α)
  | [], draws => return ([], draws)
  | w :: rest, draws => do
    let (w, draws) ← move density dimension others w draws
    let (rest, draws) ← moveAll density dimension others rest draws
    return (w :: rest, draws)

/-- Moves both halves. -/
def step (density : List Single → Single) (dimension : Nat) (walkers : List Walker)
    (draws : Draws α) : Except Error (List Walker × Draws α) := do
  let (first, second) := walkers.splitAt (walkers.length / 2)
  let (first, draws) ← moveAll density dimension second.toArray first draws
  let (second, draws) ← moveAll density dimension first.toArray second draws
  return (first ++ second, draws)

/-- The walkers after each of several steps. -/
def steps (density : List Single → Single) (dimension : Nat) :
    (n : Nat) → List Walker → Draws α → Except Error (List (List Walker))
  | 0, _, _ => return []
  | n + 1, walkers, draws => do
    let (walkers, draws) ← step density dimension walkers draws
    return walkers :: (← steps density dimension n walkers draws)

/-- The walkers after each of several steps from given positions. -/
def run (density : List Single → Single) (dimension n : Nat) (positions : List (List Single))
    (draws : Draws α) : Except Error (List (List Walker)) := do
  check positions.length dimension
  steps density dimension n (← positions.mapM (place density)) draws

end Ensemble

end PulseFit
