import PulseFit.Scalar.Bessel

/-!
# Scalar.Gamma — the logarithm of the gamma function in double precision

Near the minimum, near 1 and near 2 the function has approximations of its own; up to 8 it is
reduced to the interval from 2 to 3, from 8 on it follows its asymptotic series, and a negative
number is reflected.
-/

namespace PulseFit.Double

/-- The sine of `πx` for a positive number. -/
def sinPi (x : Float) : Float :=
  let x := 2.0 * (x * 0.5 - (x * 0.5).floor)
  let octant := (x * 4.0).toUInt64.toNat
  let n := (octant + 1) / 2
  let y := (x - Float.ofNat n * 0.5) * 3.14159265358979311600e+00
  match n with
  | 0 => y.sin
  | 1 => y.cos
  | 2 => (-y).sin
  | 3 => -y.cos
  | _ => y.sin

/-- The logarithm of the gamma function at `2 - y`, for `y` near zero. -/
def lnGammaNearTwo (y : Float) : Float :=
  let z := y * y
  let even := horner [7.72156649015328655494e-02, 6.73523010531292681824e-02,
    7.38555086081402883957e-03, 1.19270763183362067845e-03, 2.20862790713908385557e-04,
    2.52144565451257326939e-05] z
  let odd := z * horner [3.22467033424113591611e-01, 2.05808084325167332806e-02,
    2.89051383673415629091e-03, 5.10069792153511336608e-04, 1.08011567247583939954e-04,
    4.48640949618915160150e-05] z
  y * even + odd - 0.5 * y

/-- The place of the minimum on the positive numbers. -/
def minimumPlace : Float := 1.46163214496836224576e+00

/-- The logarithm of the gamma function at a distance `y` from its minimum. -/
def lnGammaNearMinimum (y : Float) : Float :=
  let z := y * y
  let w := z * y
  let p1 := horner [4.83836122723810047042e-01, -3.27885410759859649565e-02,
    6.10053870246291332635e-03, -1.40346469989232843813e-03, 3.15632070903625950361e-04] w
  let p2 := horner [-1.47587722994593911752e-01, 1.79706750811820387126e-02,
    -3.68452016781138256760e-03, 8.81081882437654011382e-04, -3.12754168375120860518e-04] w
  let p3 := horner [6.46249402391333854778e-02, -1.03142241298341437450e-02,
    2.25964780900612472250e-03, -5.38595305356740546715e-04, 3.35529192635519073543e-04] w
  let p := z * p1 - (-3.63867699703950536541e-18 - w * (p2 + y * p3))
  p - 1.21486290535849611461e-01

/-- The logarithm of the gamma function at `1 + y`, for `y` near zero. -/
def lnGammaNearOne (y : Float) : Float :=
  let top := y * horner [-7.72156649015328655494e-02, 6.32827064025093366517e-01,
    1.45492250137234768737e+00, 9.77717527963372745603e-01, 2.28963728064692451092e-01,
    1.33810918536787660377e-02] y
  let bottom := horner [1.0, 2.45597793713041134822e+00, 2.12848976379893395361e+00,
    7.69285150456672783825e-01, 1.04222645593369134254e-01, 3.21709242282423911810e-03] y
  top / bottom - 0.5 * y

/-- The logarithm of the gamma function below 2. -/
def lnGammaLow (word : Nat) (x : Float) : Float :=
  if word ≤ 0x3feccccc then
    let r := -x.log
    if 0x3FE76944 ≤ word then r + lnGammaNearTwo (1.0 - x)
    else if 0x3FCDA661 ≤ word then r + lnGammaNearMinimum (x - (minimumPlace - 1.0))
    else r + lnGammaNearOne x
  else if 0x3FFBB4C3 ≤ word then lnGammaNearTwo (2.0 - x)
  else if 0x3FF3B4C4 ≤ word then lnGammaNearMinimum (x - minimumPlace)
  else lnGammaNearOne (x - 1.0)

/-- The logarithm of the gamma function from 2 to 8. -/
def lnGammaMiddle (x : Float) : Float :=
  let i := x.toUInt64.toNat
  let y := x - Float.ofNat i
  let top := y * horner [-7.72156649015328655494e-02, 2.14982415960608852501e-01,
    3.25778796408930981787e-01, 1.46350472652464452805e-01, 2.66422703033638609560e-02,
    1.84028451407337715652e-03, 3.19475326584100867617e-05] y
  let bottom := horner [1.0, 1.39200533467621045958e+00, 7.21935547567138069525e-01,
    1.71933865632803078993e-01, 1.86459191715652901344e-02, 7.77942496381893596434e-04,
    7.32668430744625636189e-06] y
  let r := 0.5 * y + top / bottom
  if i < 3 then r
  else
    let z := (List.range (i - 2)).reverse.foldl (fun z k => z * (y + Float.ofNat (k + 2))) 1.0
    r + z.log

/-- The logarithm of the gamma function from 8 on. -/
def lnGammaHigh (word : Nat) (x : Float) : Float :=
  if 0x43900000 ≤ word then x * (x.log - 1.0)
  else
    let z := 1.0 / x
    let w := 4.18938533204672725052e-01 + z * horner [8.33333333333329678849e-02,
      -2.77777777728775536470e-03, 7.93650558643019558500e-04, -5.95187557450339963135e-04,
      8.36339918996282139126e-04, -1.63092934096575273989e-03] (z * z)
    (x - 0.5) * (x.log - 1.0) + w

/-- The logarithm of the gamma function of a positive number that is not tiny. -/
def lnGammaPositive (x : Float) : Float :=
  let word := highWord x
  if x == 1.0 || x == 2.0 then 0.0
  else if word < 0x40000000 then lnGammaLow word x
  else if word < 0x40200000 then lnGammaMiddle x
  else lnGammaHigh word x

/-- The logarithm of the absolute value of the gamma function. -/
def lnGamma (x : Float) : Float :=
  let word := highWord x
  if 0x7ff00000 ≤ word then x * x
  else if word < 0x3b900000 then -x.abs.log
  else if x < 0.0 then
    let x := -x
    let t := (sinPi x).abs
    if t == 0.0 then 1.0 / (x - x)
    else (3.14159265358979311600e+00 / (t * x)).log - lnGammaPositive x
  else lnGammaPositive x

end PulseFit.Double
