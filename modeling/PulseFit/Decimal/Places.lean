import PulseFit.Decimal.Exact

/-!
# Decimal.Places — texts with a fixed number of digits

`scientific` writes a double with a fixed number of significant digits, `fixed` with a fixed
number of digits after the point.  Both round the exact value, a half to the even neighbour.
-/

namespace PulseFit.Decimal

/-- The digits of a number, with zeros in front up to a width. -/
def padded (width n : Nat) : List Char :=
  let digits := Nat.toDigits 10 n
  List.replicate (width - digits.length) '0' ++ digits

/-- A minus sign if asked for. -/
def sign (negative : Bool) : List Char := if negative then ['-'] else []

/-- The texts of the values that are not finite numbers. -/
def special? : Meaning → Option String
  | .notANumber => some "NaN"
  | .infinite negative => some (String.ofList (sign negative ++ "inf".toList))
  | .finite .. => none

/-- The text of a positive fraction with `places + 1` significant digits and an exponent. -/
def scientificChars (places : Nat) (x : Fraction) : List Char :=
  let e := x.magnitude
  let n := (x.shift (places - e)).round
  let (n, e) := if n = Nat.pow 10 (places + 1) then (Nat.pow 10 places, e + 1) else (n, e)
  let digits := padded (places + 1) n
  digits.take 1 ++ '.' :: digits.drop 1 ++ 'e' :: (toString e).toList

/-- A double with `places + 1` significant digits; both zeros are `0`. -/
def scientific (places : Nat) (x : Float) : String :=
  match meaning x with
  | .finite negative m e =>
    if m = 0 then "0"
    else String.ofList (sign negative ++ scientificChars places (.scaled m 2 e))
  | other => (special? other).getD ""

/-- A double with `places` digits after the point; a result of zero has no sign. -/
def fixed (places : Nat) (x : Float) : String :=
  match meaning x with
  | .finite negative m e =>
    let n := ((Fraction.scaled m 2 e).shift places).round
    let digits := padded (places + 1) n
    let cut := digits.length - places
    String.ofList (sign (negative && n ≠ 0) ++ digits.take cut ++ '.' :: digits.drop cut)
  | other => (special? other).getD ""

end PulseFit.Decimal
