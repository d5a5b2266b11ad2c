import PulseFit.Json.Reader

/-!
# Json.Fields — reading records

A record with known fields is an object that names each of them at most once, among others that
are ignored, or an array that lists their values in order.
-/

namespace PulseFit.Json

/-- The values of the named members of an object; `none` if a name is no text or a known name
occurs twice. -/
def memberValues? (names : List String) (members : List (Option String × Value)) :
    Option (List (Option Value)) :=
  if members.all (·.1.isSome) then
    names.mapM fun name =>
      match members.filter (·.1 == some name) with
      | [] => some none
      | [m] => some (some m.2)
      | _ => none
  else none

/-- The values of the named fields of a record, each of which may be absent. -/
def fields? (names : List String) : Value → Option (List (Option Value))
  | .object members => memberValues? names members
  | .array items =>
    if items.length ≤ names.length then
      some (items.map some ++ List.replicate (names.length - items.length) none)
    else none
  | _ => none

/-- A record all of whose fields are present. -/
def allFields? (names : List String) (v : Value) : Option (List Value) :=
  (fields? names v).bind fun vs => vs.mapM id

/-- A number. -/
def scalar? {α : Type} [Scalar α] : Value → Option α
  | .number n => n.scaled?
  | _ => none

/-- A natural number below `2 ^ bits`, written without point, exponent or sign. -/
def natural? (bits : Nat) : Value → Option Nat
  | .number n => n.natural? bits
  | _ => none

/-- A list whose items are all read by one reader. -/
def list? {β : Type} (item? : Value → Option β) : Value → Option (List β)
  | .array items => items.mapM item?
  | _ => none

/-- The value of a number; one that is not finite has no numeral. -/
def ofScalar {α : Type} [Scalar α] (number : α → Value) (x : α) : Value :=
  if Scalar.isFinite x then number x else .null

end PulseFit.Json
