import PulseFit.Scalar
import PulseFit.Scalar.Bessel
import PulseFit.Scalar.Fourier
import PulseFit.Scalar.Gamma

/-!
# Scalar.Double — the arithmetic in double precision
-/

namespace PulseFit.Double

/-- The place of a double in the order of all doubles: negative ones before positive ones, the
infinities outside the finite numbers, `-0` before `0`.  All bit patterns that are no number are one
double here, with the bits that `Float.toBits` gives it, which stands behind positive infinity. -/
def totalPlace (x : Float) : UInt64 :=
  let bits := x.toBits
  if bits &&& 0x8000000000000000 = 0 then bits ||| 0x8000000000000000 else ~~~bits

instance : Scalar Float where
  decideLT := inferInstance
  decideLE := inferInstance
  ofNat := Float.ofNat
  toNat x := x.toUInt64.toNat
  floor := Float.floor
  isNaN := Float.isNaN
  isFinite := Float.isFinite
  infinity := 1.0 / 0.0
  pi := 3.141592653589793
  tiny := 2.2250738585072014e-308
  exp := Float.exp
  ln := Float.log
  cos := Float.cos
  pow := Float.pow
  besselJ0 := besselJ0
  lnGamma := lnGamma
  circular := circular
  totalLe x y := totalPlace x ≤ totalPlace y
  toSingle x := Single.ofFloat32 x.toFloat32
  ofSingle x := x.toFloat32.toFloat

end PulseFit.Double
