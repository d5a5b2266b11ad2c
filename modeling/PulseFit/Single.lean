/-!
# Single — 32-bit floating-point numbers

The walkers of a sampler hold their positions in single precision.  A number is kept as its bits:
a sign, eight bits of exponent, 23 bits of fraction.  Order, sign and neighbours are read off the
bits; sums and products go through the machine's arithmetic.
-/

namespace PulseFit

/-- A 32-bit floating-point number. -/
structure Single where
  bits : UInt32
  deriving DecidableEq, Repr

namespace Single

/-- The number of a machine value. -/
def ofFloat32 (x : Float32) : Single := ⟨x.toBits⟩

/-- The machine value of a number. -/
def toFloat32 (x : Single) : Float32 := Float32.ofBits x.bits

/-- The bits without the sign. -/
def magnitude (x : Single) : Nat := x.bits.toNat % 0x80000000

/-- Whether the sign bit is set. -/
def negative (x : Single) : Bool := 0x80000000 ≤ x.bits.toNat

/-- The magnitude of the infinities; what lies above is not a number. -/
def infiniteMagnitude : Nat := 0x7F800000

/-- Whether the bits hold no number. -/
def isNaN (x : Single) : Bool := infiniteMagnitude < x.magnitude

/-- Whether the bits hold a finite number. -/
def isFinite (x : Single) : Bool := x.magnitude < infiniteMagnitude

/-- Whether the bits hold an infinity. -/
def isInfinite (x : Single) : Bool := x.magnitude == infiniteMagnitude

/-- The place of a number among all numbers, with both zeros at one place. -/
def place (x : Single) : Int := if x.negative then -x.magnitude else x.magnitude

/-- Whether one number is less than another; false where either is no number. -/
def lt (x y : Single) : Bool := !x.isNaN && !y.isNaN && decide (x.place < y.place)

/-- The least number. -/
def negInfinity : Single := ⟨0xFF800000⟩

/-- The next number above or below.  From zero it is the number of least magnitude. -/
def next (up : Bool) (x : Single) : Single :=
  if x.magnitude = 0 then ⟨if up then 1 else 0x80000001⟩
  else if (lt ⟨0⟩ x) == up then ⟨x.bits + 1⟩
  else ⟨x.bits - 1⟩

/-- The sum. -/
def add (x y : Single) : Single := ofFloat32 (x.toFloat32 + y.toFloat32)

/-- The difference. -/
def sub (x y : Single) : Single := ofFloat32 (x.toFloat32 - y.toFloat32)

/-- The product. -/
def mul (x y : Single) : Single := ofFloat32 (x.toFloat32 * y.toFloat32)

/-- The quotient. -/
def div (x y : Single) : Single := ofFloat32 (x.toFloat32 / y.toFloat32)

/-- The natural logarithm. -/
def ln (x : Single) : Single := ofFloat32 x.toFloat32.log

instance : Add Single := ⟨add⟩
instance : Sub Single := ⟨sub⟩
instance : Mul Single := ⟨mul⟩
instance : Div Single := ⟨div⟩

end Single

end PulseFit
