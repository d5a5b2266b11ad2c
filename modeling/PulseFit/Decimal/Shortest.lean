import PulseFit.Decimal.Places

/-!
# Decimal.Shortest — the fewest digits that read back

The decimal numbers that read back as a given double are those nearest to it, which is an interval
around its exact value.  Of the numbers in the interval with the fewest digits the text writes the
nearest, without an exponent.
-/

namespace PulseFit.Decimal

/-- The decimals that are nearest to a double: its value and the ends of the interval, all over
one denominator, and whether the ends belong to it. -/
structure Interval where
  low : Nat
  value : Nat
  high : Nat
  den : Nat
  closed : Bool

/-- The interval of a positive double.  Below a power of two the doubles lie twice as dense. -/
def interval (m : Nat) (e : Int) : Interval :=
  let unit := Fraction.scaled 1 2 (e - 2)
  let narrow := m = hiddenBit ∧ -1074 < e
  { low := (4 * m - (if narrow then 1 else 2)) * unit.num
    value := 4 * m * unit.num
    high := (4 * m + 2) * unit.num
    den := unit.den
    closed := m % 2 = 0 }

/-- Whether `n` in units of `10 ^ power` lies in the interval. -/
def Interval.holds (i : Interval) (n : Nat) (power : Int) : Bool :=
  let x := Fraction.scaled n 10 power
  let mid := x.num * i.den
  let low := i.low * x.den
  let high := i.high * x.den
  (low < mid && mid < high) || (i.closed && (low == mid || mid == high))

/-- Of the multiples of `10 ^ power` next to the value, the nearest that lies in the interval; the
upper one where both are as near. -/
def Interval.nearest? (i : Interval) (power : Int) : Option Nat :=
  let x := Fraction.shift ⟨i.value, i.den⟩ (-power)
  let below := x.num / x.den
  let upper := x.den ≤ 2 * (x.num % x.den)
  let (first, second) := if upper then (below + 1, below) else (below, below + 1)
  if i.holds first power then some first
  else if i.holds second power then some second
  else none

/-- The shortest decimal in the interval: digits and power of ten. -/
def Interval.shortest (i : Interval) : Nat × Int :=
  let e := (Fraction.mk i.value i.den).magnitude
  ((List.range 17).findSome? fun (k : Nat) =>
    let power := e - k
    (i.nearest? power).map (·, power)).getD (0, 0)

/-- A whole number of units of `10 ^ power` without an exponent. -/
def positional (n : Nat) (power : Int) : List Char :=
  let digits := Nat.toDigits 10 n
  if 0 ≤ power then digits ++ List.replicate power.toNat '0'
  else
    let digits := padded (power.natAbs + 1) n
    let cut := digits.length - power.natAbs
    digits.take cut ++ '.' :: digits.drop cut

/-- The shortest text of a double. -/
def shortest (x : Float) : String :=
  match meaning x with
  | .finite negative m e =>
    if m = 0 then String.ofList (sign negative ++ ['0'])
    else
      let (n, power) := (interval m e).shortest
      String.ofList (sign negative ++ positional n power)
  | other => (special? other).getD ""

end PulseFit.Decimal
