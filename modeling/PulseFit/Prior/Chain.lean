import PulseFit.Prior.Marginal

/-!
# Prior.Chain — parameters in ascending order

A chain names parameters that must not decrease from one to the next, nor grow by more than a
limit.  Each step of a chain gives a derived parameter, the difference of its two members.
-/

namespace PulseFit

/-- Parameters whose values have to ascend. -/
structure Chain (α : Type) where
  /-- The places of the members in a list of values. -/
  members : List Nat
  /-- The names of the differences of neighbouring members. -/
  names : List String
  /-- The largest difference of neighbours. -/
  limit : α

namespace Chain

variable {α : Type} [Scalar α]

/-- The neighbouring entries of a list. -/
def pairs {β : Type} (xs : List β) : List (β × β) := xs.zip xs.tail

/-- The value at a place. -/
@[inline] def valueAt (values : List α) (i : Nat) : α := values.getD i 0.0

/-- The differences of neighbouring members. -/
@[specialize] def differences (c : Chain α) (values : List α) : List α :=
  (pairs c.members).map fun (i, j) => valueAt values j - valueAt values i

/-- Whether a difference lies between zero and the limit. -/
def allows (c : Chain α) (difference : α) : Bool :=
  0.0 ≤ difference && difference ≤ c.limit

/-- Whether the values ascend along the chain in allowed steps. -/
def holds (c : Chain α) (values : List α) : Bool := (c.differences values).all c.allows

/-- The values with those of the members in ascending order. -/
def sort (c : Chain α) (values : List α) : List α :=
  let ascending := (c.members.map (valueAt values)).mergeSort Scalar.totalLe
  (c.members.zip ascending).foldl (fun values (i, x) => values.set i x) values

/-- The derived parameters with their values. -/
def derived (c : Chain α) (values : List α) : List (String × α) :=
  c.names.zip (c.differences values)

end Chain

end PulseFit
