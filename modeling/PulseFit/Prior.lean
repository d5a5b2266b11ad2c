import PulseFit.Assignment
import PulseFit.Model
import PulseFit.Prior.Bounds
import PulseFit.Prior.Chain

/-!
# Prior — distributions of all parameters of a model

A prior has an entry for every parameter and a chain for every order that the parameters have to
keep.  Pulses differ by their numbers only, so without an order every point would occur once for
each way to number the pulses: their starts ascend, and so do the residuals along the pulses that
have one.  Several channels share the entries of the lens and have all else for themselves.
-/

namespace PulseFit

namespace Prior

/-- A parameter and its distribution. -/
structure Entry (α : Type) where
  key : Key
  marginal : Marginal α

/-- The name of the parameter. -/
def Entry.name {α : Type} (e : Entry α) : String := e.key.text

/-- The number of attempts at a draw unless another is set. -/
def usualAttempts : Nat := 100000

end Prior

/-- Distributions of parameters that have to keep an order. -/
structure Prior (α : Type) where
  entries : List (Prior.Entry α)
  chains : List (Chain α)
  /-- The number of attempts at a draw that keeps the order. -/
  attempts : Nat := Prior.usualAttempts
  attempts_pos : 0 < attempts := by decide

namespace Prior

variable {α : Type} [Scalar α]

/-- The parameters of a model in several channels; those of the lens stand with the first. -/
def modelKeys (m : Model) : List Channel → List Key
  | [] => []
  | ch :: rest =>
    m.keys ch ++ rest.flatMap fun ch => (m.keys ch).filter (·.quantity.scope ≠ .shared)

/-- The name of the derived parameter of the step that ends at a pulse. -/
def startStepName (ch : Channel) (i : Nat) : String :=
  String.ofList (Assignment.constraintMark ++ Nat.toDigits 10 i ++ ['_', ch.letter])

/-- The name of the derived parameter of the step that ends at the residual of a pulse. -/
def residualStepName (ch : Channel) (i : Nat) : String :=
  String.ofList
    (Assignment.constraintMark ++ Nat.toDigits 10 i ++ ['_', ch.letter] ++ "_res".toList)

/-- The places of keys in a list, or the error that one has no prior. -/
def places (keys wanted : List Key) : Except (PriorError α) (List Nat) :=
  wanted.mapM fun k =>
    if keys.contains k then .ok (keys.idxOf k) else .error (.unknownPrior k.text)

/-- The chain of keys, of which there have to be two at least. -/
def chain? (keys wanted : List Key) (names : List String) (limit : α) :
    Except (PriorError α) (Option (Chain α)) := do
  let members ← places keys wanted
  return if 1 < members.length then some ⟨members, names, limit⟩ else none

/-- The chains of a channel: the starts of all pulses, and the begins of all residuals. -/
def channelChains (m : Model) (limit : α) (keys : List Key) (ch : Channel) :
    Except (PriorError α) (List (Chain α)) := do
  let pulses := List.range' 1 m.size
  let owners := m.residualChain
  let starts ← chain? keys (pulses.map fun i => .shape .start i ch)
    (pulses.tail.map (startStepName ch)) limit
  let residuals ← chain? keys (owners.map fun i => .shape .residualBegin i ch)
    (owners.tail.map (residualStepName ch)) limit
  return starts.toList ++ residuals.toList

/-- The prior of a model in channels.  The bounds are checked first; `none` would say that checked
bounds still give some parameter no distribution. -/
def build? (m : Model) (channels : List Channel) (b : Bounds α) :
    Option (Except (PriorError α) (Prior α)) :=
  match b.validate with
  | .error error => some (.error error)
  | .ok () => do
    let keys := modelKeys m channels
    let entries ← keys.mapM fun key => (b.marginal? key.quantity).map (Entry.mk key ·)
    return do
      let chains ← channels.mapM (channelChains m b.width keys)
      return { entries, chains := chains.flatten }

/-- The same prior with another number of attempts, which cannot be zero. -/
def withAttempts? (r : Prior α) (attempts : Nat) : Option (Prior α) :=
  if h : 0 < attempts then some { r with attempts, attempts_pos := h } else none

/-- The number of parameters. -/
def size (r : Prior α) : Nat := r.entries.length

/-- The names of the parameters. -/
def names (r : Prior α) : List String := r.entries.map Entry.name

/-- The names of the derived parameters. -/
def constraintNames (r : Prior α) : List String := r.chains.flatMap (·.names)

/-- The distribution of the parameter of a name. -/
def get? (r : Prior α) (name : String) : Option (Marginal α) :=
  (r.entries.find? (·.name == name)).map (·.marginal)

/-- The entries with another distribution for the first of a key. -/
def replace (key : Key) (marginal : Marginal α) : List (Entry α) → List (Entry α)
  | [] => []
  | e :: rest => if e.key = key then ⟨key, marginal⟩ :: rest else e :: replace key marginal rest

/-- The same prior with another distribution for a parameter that it has. -/
def overwrite (r : Prior α) (name : String) (marginal : Marginal α) :
    Except (PriorError α) (Prior α) :=
  match Key.parse name with
  | .error error => .error (.key error)
  | .ok key =>
    if r.entries.any (·.key == key) then
      .ok { r with entries := replace key marginal r.entries }
    else .error (.unknownPrior key.text)

/-- The values of an assignment in the order of the entries. -/
def values (r : Prior α) (p : Assignment α) : Except (PriorError α) (List α) :=
  r.entries.mapM fun e =>
    match p[e.name]? with
    | some x => .ok x
    | none => .error (.missingParameter e.name)

/-- Whether values keep the order of all chains. -/
def ordered (r : Prior α) (values : List α) : Bool := r.chains.all (·.holds values)

/-- The sum of the logarithms of all densities. -/
@[specialize] def logSum (entries : List (Entry α)) (values : List α) : α :=
  (entries.zip values).foldl (fun acc (e, x) => acc + e.marginal.logAt x) 0.0

/-- The log-density of as many values as entries. -/
def logOfValues (r : Prior α) (values : List α) : α :=
  if r.ordered values then logSum r.entries values else Scalar.negInfinity

/-- The log-density of values; `none` if they are not as many as the entries. -/
def logOfValues? (r : Prior α) (values : List α) : Option α :=
  if values.length = r.size then some (r.logOfValues values) else none

/-- The log-density of an assignment. -/
def logAt (r : Prior α) (p : Assignment α) : Except (PriorError α) α :=
  r.logOfValues <$> r.values p

/-- Whether an assignment keeps the order of all chains. -/
def satisfied (r : Prior α) (p : Assignment α) : Except (PriorError α) Bool :=
  r.ordered <$> r.values p

/-- An assignment with its derived parameters. -/
def constrained (r : Prior α) (p : Assignment α) : Except (PriorError α) (Assignment α) := do
  let values ← r.values p
  return (r.chains.flatMap (·.derived values)).foldl (fun p (name, x) => p.insert name x) p

/-- The assignment of values to the parameters; of a repeated name the last value holds. -/
def assign (r : Prior α) (values : List α) : Assignment α := .ofPairs (r.names.zip values)

end Prior

end PulseFit
