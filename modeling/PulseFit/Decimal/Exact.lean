/-!
# Decimal.Exact — the exact value of a double

A finite double is a natural number times a power of two.  Decimal texts are computed from that
exact value in natural numbers, without floating-point arithmetic.
-/

namespace PulseFit.Decimal

/-- What the bits of a double mean. -/
inductive Meaning where
  | notANumber
  | infinite (negative : Bool)
  /-- The number of magnitude `mantissa * 2 ^ exponent`. -/
  | finite (negative : Bool) (mantissa : Nat) (exponent : Int)
  deriving DecidableEq, Repr

/-- The leading bit of a fraction, which normal numbers leave out. -/
def hiddenBit : Nat := 0x10000000000000

/-- The meaning of 64 bits: a sign, eleven bits of exponent, 52 bits of fraction. -/
def meaningOfBits (bits : Nat) : Meaning :=
  let negative := bits / 0x8000000000000000 == 1
  let power : Nat := bits / hiddenBit % 2048
  let fraction : Nat := bits % hiddenBit
  if power = 2047 then
    if fraction = 0 then .infinite negative else .notANumber
  else if power = 0 then .finite negative fraction (-1074)
  else .finite negative (hiddenBit + fraction) ((power : Int) - 1075)

/-- The meaning of a double. -/
def meaning (x : Float) : Meaning := meaningOfBits x.toBits.toNat

/-- A quotient of natural numbers that is not negative. -/
structure Fraction where
  num : Nat
  den : Nat

namespace Fraction

/-- The number `n * base ^ power`. -/
def scaled (n base : Nat) (power : Int) : Fraction :=
  if 0 ≤ power then ⟨n * base.pow power.toNat, 1⟩ else ⟨n, base.pow power.natAbs⟩

/-- The product of a fraction and a power of ten. -/
def shift (x : Fraction) (power : Int) : Fraction :=
  if 0 ≤ power then ⟨x.num * Nat.pow 10 power.toNat, x.den⟩
  else ⟨x.num, x.den * Nat.pow 10 power.natAbs⟩

/-- The natural number next to a fraction; a half goes to the even neighbour. -/
def round (x : Fraction) : Nat :=
  let q := x.num / x.den
  let r := x.num % x.den
  if 2 * r < x.den then q else if x.den < 2 * r then q + 1 else q + q % 2

/-- The power of ten of the leading digit of a fraction that is not zero. -/
def magnitude (x : Fraction) : Int :=
  if x.den ≤ x.num then (Nat.toDigits 10 (x.num / x.den)).length - 1
  else
    let k := (Nat.toDigits 10 (x.den / x.num)).length
    if x.den ≤ x.num * Nat.pow 10 (k - 1) then 1 - k else -k

end Fraction

end PulseFit.Decimal
