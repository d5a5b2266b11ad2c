import Std.Data.ExtTreeMap
import PulseFit.Key

/-!
# Assignment — values for named parameters

An assignment gives values to texts, most of which are the texts of keys.  Two assignments are
equal when they give the same values.  Names that begin with `constraint_` are derived: they hold
differences of other parameters and can be dropped without loss.
-/

namespace PulseFit

/-- Values for named parameters. -/
abbrev Assignment (α : Type) := Std.ExtTreeMap String α compare

namespace Assignment

variable {α : Type}

/-- The beginning of the names of derived parameters. -/
def constraintMark : List Char := "constraint_".toList

/-- Whether a name is that of a derived parameter. -/
def isConstraint (name : String) : Bool := constraintMark.isPrefixOf name.toList

/-- The assignment without derived parameters. -/
def withoutConstraints (p : Assignment α) : Assignment α :=
  p.filter fun name _ => !isConstraint name

/-- The assignment of pairs; of two values for one name the later one holds. -/
def ofPairs (pairs : List (String × α)) : Assignment α :=
  pairs.foldl (fun p (name, x) => p.insert name x) ∅

end Assignment

end PulseFit
