import PulseFit.Scalar

/-!
# Decimal.Numeral — numbers as they are written

A numeral keeps its digits, so that each reader can turn them into a number by its own rule:
`nearest` takes the double next to the decimal value, `scaled?` gathers digits up to 64 bits and
then scales by a power of ten.
-/

namespace PulseFit

/-- A decimal numeral: sign, digits before and after the point, power of ten. -/
structure Numeral where
  negative : Bool
  whole : List Char
  fraction : List Char
  exponent : Option Int
  deriving DecidableEq, Repr

namespace Numeral

/-- The numeral of a natural number. -/
def ofNat (n : Nat) : Numeral := ⟨false, Nat.toDigits 10 n, [], none⟩

/-- Whether the numeral has neither fraction nor exponent. -/
def isWhole (n : Numeral) : Bool := n.fraction.isEmpty && n.exponent.isNone

/-- The characters of the numeral. -/
def chars (n : Numeral) : List Char :=
  (if n.negative then ['-'] else []) ++ n.whole ++
    (if n.fraction.isEmpty then [] else '.' :: n.fraction) ++
    match n.exponent with
    | none => []
    | some e => 'e' :: (toString e).toList

/-- The natural number that a numeral without sign, fraction and exponent writes, if it has at
most `bits` bits. -/
def natural? (bits : Nat) (n : Numeral) : Option Nat :=
  let value := Nat.ofDigitChars 10 n.whole 0
  if !n.negative && n.isWhole && value < Nat.pow 2 bits then some value else none

/-- The digit of a character. -/
def digit (c : Char) : Nat := c.toNat - '0'.toNat

/-- The double nearest to the value of the numeral.  Beyond 400 digits from the point the value is
zero or infinite whatever the digits are. -/
def nearest (n : Numeral) : Float :=
  let value := Nat.ofDigitChars 10 (n.whole ++ n.fraction) 0
  let power := n.exponent.getD 0 - n.fraction.length
  let top := power + (n.whole.length + n.fraction.length : Nat)
  let size : Float :=
    if value = 0 || top < -400 then 0.0
    else if 400 < power then 1.0 / 0.0
    else if power < 0 then Float.ofScientific value true power.natAbs
    else Float.ofScientific value false power.natAbs
  if n.negative then -size else size

/-- Digits gathered into a number below `2^64`. -/
structure Gathered where
  value : Nat
  /-- The power of ten that the digits so far have to be scaled by. -/
  power : Int
  /-- Whether a digit had to be left out. -/
  full : Bool

/-- The bound on gathered digits. -/
def gatherBound : Nat := 0x10000000000000000

/-- Gathers one more digit before the point; once one has been left out, all are. -/
def gatherWhole (g : Gathered) (c : Char) : Gathered :=
  let value := g.value * 10 + digit c
  if g.full || gatherBound ≤ value then { g with power := g.power + 1, full := true }
  else { g with value }

/-- Gathers one more digit after the point; once one has been left out, all are. -/
def gatherFraction (g : Gathered) (c : Char) : Gathered :=
  let value := g.value * 10 + digit c
  if g.full || gatherBound ≤ value then { g with full := true }
  else { g with value, power := g.power - 1 }

/-- The digits of a numeral, gathered. -/
def gather (n : Numeral) : Gathered :=
  let whole := n.whole.foldl gatherWhole ⟨0, 0, false⟩
  n.fraction.foldl gatherFraction { whole with full := false }

section

variable {α : Type} [Scalar α]

/-- A value scaled by a power of ten, downwards in steps of 308 places; `none` if it grows beyond
the finite numbers. -/
def scale? (x : α) (power : Int) : Option α :=
  if 308 < power then
    if x == 0.0 then some x else none
  else if 0 ≤ power then
    let y := x * OfScientific.ofScientific 1 false power.toNat
    if Scalar.isFinite y then some y else none
  else if -308 ≤ power then some (x / OfScientific.ofScientific 1 false power.natAbs)
  else if x == 0.0 then some x
  else scale? (x / OfScientific.ofScientific 1 false 308) (power + 308)
termination_by power.natAbs
decreasing_by omega

/-- The number of a numeral by gathering its digits and scaling, `none` if it is too large. -/
def scaled? (n : Numeral) : Option α :=
  let g := n.gather
  (scale? (Scalar.ofNat g.value) (g.power + n.exponent.getD 0)).map fun x =>
    if n.negative then -x else x

end

end Numeral

end PulseFit
