import PulseFit.BinnedCounts
import PulseFit.Json.Fields

/-!
# BinnedCounts.Json — series in configuration texts

An array is written as a record of a version, its dimensions and its entries row by row.  Reading
checks that dimensions and entries agree, and nothing about what they mean.
-/

namespace PulseFit

namespace Table

variable {α : Type} [Scalar α]

/-- The product of the dimensions that are not zero stays below this bound. -/
def sizeBound : Nat := 0x8000000000000000

/-- The version, which can only be one. -/
def version? (v : Json.Value) : Option Nat := (Json.natural? 8 v).filter (· == 1)

/-- A list of `rank` dimensions. -/
def dimensions? (rank : Nat) (v : Json.Value) : Option (List Nat) :=
  (Json.list? (Json.natural? 64) v).filter (·.length == rank)

/-- The entries. -/
def entries? : Json.Value → Option (List α) := Json.list? Json.scalar?

variable (α) in
/-- Whether a member of an array's record is well formed. -/
def wellFormed (rank : Nat) : Option String × Json.Value → Bool
  | (some "v", v) => (version? v).isSome
  | (some "dim", v) => (dimensions? rank v).isSome
  | (some "data", v) => (entries? v : Option (List α)).isSome
  | _ => false

/-- The last member of a name. -/
def lastMember? (name : String) (members : List (Option String × Json.Value)) :
    Option Json.Value :=
  (members.reverse.find? (·.1 == some name)).map (·.2)

/-- Dimensions and entries of an array.  In an object the last of repeated members counts, but all
of them have to be well formed. -/
def parts? (rank : Nat) : Json.Value → Option (List Nat × List α)
  | .array [version, dims, data] => do
    let _ ← version? version
    some (← dimensions? rank dims, ← entries? data)
  | .object members =>
    if members.all (wellFormed α rank) then do
      let _ ← lastMember? "v" members
      let dims ← lastMember? "dim" members
      let data ← lastMember? "data" members
      some (← dimensions? rank dims, ← entries? data)
    else none
  | _ => none

/-- The entries of an array of the given rank, if they are as many as its dimensions say. -/
def shaped? (rank : Nat) (v : Json.Value) : Option (List Nat × Array α) := do
  let (dims, data) ← parts? rank v
  let size (dims : List Nat) : Nat := dims.foldl (· * ·) 1
  if size (dims.filter (· ≠ 0)) < sizeBound ∧ size dims = data.length then
    some (dims, data.toArray)
  else none

/-- The record of an array. -/
def shapedJson (number : α → Json.Value) (dims : List Nat) (data : Array α) : Json.Value :=
  .record [("v", .ofNat 1), ("dim", .array (dims.map .ofNat)),
    ("data", .array (data.toList.map (Json.ofScalar number)))]

end Table

namespace BinnedCounts

variable {α : Type} [Scalar α]

/-- Reads a series; the edges and the counts may disagree. -/
def ofJson? (v : Json.Value) : Option (BinnedCounts α) := do
  match ← Json.allFields? ["bin_left", "bin_right", "counts"] v with
  | [left, right, counts] =>
    let (_, left) ← Table.shaped? 1 left
    let (_, right) ← Table.shaped? 1 right
    match ← Table.shaped? 2 counts with
    | ([rows, columns], data) => some ⟨left, right, { rows, columns, data }⟩
    | _ => none
  | _ => none

/-- The record of a series. -/
def toJson (number : α → Json.Value) (b : BinnedCounts α) : Json.Value :=
  .record [
    ("bin_left", Table.shapedJson number [b.left.size] b.left),
    ("bin_right", Table.shapedJson number [b.right.size] b.right),
    ("counts", Table.shapedJson number [b.counts.rows, b.counts.columns] b.counts.data)]

end BinnedCounts

end PulseFit
