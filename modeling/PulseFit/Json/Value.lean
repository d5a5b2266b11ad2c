import PulseFit.Decimal.Numeral

/-!
# Json.Value — values of the JSON format and their text

A text in a value is `none` where its escapes name no sequence of characters (one half of a
surrogate pair).  Such a value is well formed, but no reader of texts accepts it.  Members of an
object keep their order and may repeat a name.
-/

namespace PulseFit.Json

/-- A JSON value. -/
inductive Value where
  | null
  | bool (b : Bool)
  | number (n : Numeral)
  | string (text : Option String)
  | array (items : List Value)
  | object (members : List (Option String × Value))

namespace Value

/-- The value of a text. -/
def text (s : String) : Value := string (some s)

/-- The value of a natural number. -/
def ofNat (n : Nat) : Value := number (Numeral.ofNat n)

/-- An object with the given members. -/
def record (members : List (String × Value)) : Value :=
  object (members.map fun m => (some m.1, m.2))

/-- The value of something that may be absent. -/
def ofOption {β : Type} (f : β → Value) : Option β → Value
  | none => null
  | some x => f x

/-- The first member of an object with a name. -/
def member? (name : String) : Value → Option Value
  | object members => (members.find? (·.1 == some name)).map (·.2)
  | _ => none

end Value

/-- The characters of an escaped character: quotes and backslashes are marked, control characters
are written by number. -/
def escape (c : Char) : List Char :=
  if c = '"' then ['\\', '"']
  else if c = '\\' then ['\\', '\\']
  else if c.toNat < 0x20 then
    '\\' :: 'u' :: '0' :: '0' :: [Nat.digitChar (c.toNat / 16), Nat.digitChar (c.toNat % 16)]
  else [c]

/-- The characters of a quoted text. -/
def quote (s : String) : List Char := '"' :: s.toList.flatMap escape ++ ['"']

mutual

/-- The characters of a value. -/
def print : Value → List Char
  | .null => "null".toList
  | .bool true => "true".toList
  | .bool false => "false".toList
  | .number n => n.chars
  | .string s => quote (s.getD "\uFFFD")
  | .array items => '[' :: printItems true items ++ [']']
  | .object members => '\x7b' :: printMembers true members ++ ['\x7d']

/-- The characters of the items of an array. -/
def printItems (first : Bool) : List Value → List Char
  | [] => []
  | v :: rest => (if first then [] else [',']) ++ print v ++ printItems false rest

/-- The characters of the members of an object. -/
def printMembers (first : Bool) : List (Option String × Value) → List Char
  | [] => []
  | (name, v) :: rest =>
    (if first then [] else [',']) ++ quote (name.getD "\uFFFD") ++ ':' :: print v ++
      printMembers false rest

end

/-- The text of a value. -/
def Value.render (v : Value) : String := String.ofList (print v)

end PulseFit.Json
