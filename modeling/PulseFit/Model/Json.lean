import PulseFit.Json.Fields
import PulseFit.Model.Record
import PulseFit.Scalar.Double

/-!
# Model.Json — models in configuration texts

A model is a record of its lists, its lens and its name, all of which may be left out.  Other
members are ignored, but they are read in full, so they have to be complete values themselves.
-/

namespace PulseFit

namespace Json

/-- Values nest less deep than this. -/
def depthLimit : Nat := 127

mutual

/-- Whether a value nests at most `depth` deep, and all texts and numbers in it have a value. -/
def complete : (depth : Nat) → Value → Bool
  | _, .null => true
  | _, .bool _ => true
  | _, .number n => (n.scaled? : Option Float).isSome
  | _, .string text => text.isSome
  | 0, .array _ => false
  | 0, .object _ => false
  | depth + 1, .array items => completeItems depth items
  | depth + 1, .object members => completeMembers depth members

/-- Whether all items of an array are complete. -/
def completeItems (depth : Nat) : List Value → Bool
  | [] => true
  | v :: rest => complete depth v && completeItems depth rest

/-- Whether all members of an object are complete. -/
def completeMembers (depth : Nat) : List (Option String × Value) → Bool
  | [] => true
  | (name, v) :: rest => name.isSome && complete depth v && completeMembers depth rest

end

end Json

namespace Model

open Json (Value)

/-- A list of pulse numbers, empty if left out. -/
def numbers? : Option Value → Option (List Nat)
  | none => some []
  | some v => Json.list? (Json.natural? 64) v

/-- The mark of a lensed model, false if left out. -/
def lensed? : Option Value → Option Bool
  | none => some false
  | some (.bool b) => some b
  | _ => none

/-- The name, which may be null. -/
def name? : Option Value → Option (Option String)
  | none => some none
  | some .null => some none
  | some (.string (some s)) => some (some s)
  | _ => none

/-- The names of the lists in a record. -/
def listNames : List String :=
  ["gaussian", "fred", "fredx", "convolution", "sine_gaussian", "bessel"]

/-- The record of the members of an object. -/
def record? (members : List (Option String × Value)) : Option Record := do
  match ← Json.memberValues? ("lens" :: "name" :: listNames) members with
  | [lens, name, gaussian, fred, fredx, convolution, sineGaussian, bessel] =>
    let lists : IndexLists := {
      gaussian := ← numbers? gaussian
      fred := ← numbers? fred
      fredx := ← numbers? fredx
      convolution := ← numbers? convolution
      sineGaussian := ← numbers? sineGaussian
      bessel := ← numbers? bessel }
    some { lensed := ← lensed? lens, name := ← name? name, lists }
  | _ => none

/-- The model of the members of an object. -/
def ofMembers? (members : List (Option String × Value)) : Option Model :=
  (record? members).bind fun r => (ofRecord r).toOption

/-- Reads a model. -/
def ofJson? : Value → Option Model
  | .object members =>
    if Json.completeMembers (Json.depthLimit - 1) members then ofMembers? members else none
  | _ => none

/-- The members of a record. -/
def members (r : Record) : List (String × Value) :=
  let list (ns : List Nat) : Value := .array (ns.map .ofNat)
  [("lens", .bool r.lensed)] ++ (r.name.map fun s => ("name", Value.text s)).toList ++
    listNames.zip (Component.all.map fun c => list (r.lists.get c))

/-- The object of a model. -/
def toJson (m : Model) : Value := .record (members m.record)

end Model

end PulseFit
