import PulseFit.Decimal.Numeral

/-!
# Decimal.Read — doubles in tables

A table writes a double as an optional sign and digits with at most one point among or around
them, optionally followed by a power of ten, or as the name of a value that is not finite.
-/

namespace PulseFit.Decimal

/-- The exponent after the digits: nothing, or a mark, an optional sign and digits. -/
def power? : List Char → Option Int
  | [] => some 0
  | e :: rest =>
    let (negative, digits) :=
      match rest with
      | '+' :: rest => (false, rest)
      | '-' :: rest => (true, rest)
      | _ => (false, rest)
    if (e = 'e' ∨ e = 'E') ∧ digits ≠ [] ∧ digits.all Char.isDigit then
      let size : Int := Nat.ofDigitChars 10 digits 0
      some (if negative then -size else size)
    else none

/-- An unsigned number in digits. -/
def digits? (negative : Bool) (text : List Char) : Option Float :=
  let whole := text.takeWhile Char.isDigit
  let (fraction, rest) :=
    match text.dropWhile Char.isDigit with
    | '.' :: rest => (rest.takeWhile Char.isDigit, rest.dropWhile Char.isDigit)
    | rest => ([], rest)
  if whole.isEmpty && fraction.isEmpty then none
  else (power? rest).map fun e =>
    ({ negative, whole, fraction, exponent := some e } : Numeral).nearest

/-- The double that a text writes. -/
def float? (text : List Char) : Option Float :=
  let (negative, body) :=
    match text with
    | '+' :: rest => (false, rest)
    | '-' :: rest => (true, rest)
    | _ => (false, text)
  let name := String.ofList (body.map Char.toLower)
  if name = "inf" ∨ name = "infinity" then some (if negative then -1.0 / 0.0 else 1.0 / 0.0)
  else if name = "nan" then some (0.0 / 0.0)
  else digits? negative body

end PulseFit.Decimal
