/-!
# Scalar.Bessel — the Bessel function of order zero in double precision

Below 2 the function is `1 - x²/4` plus a rational correction.  From 2 on it is
`√(1/(πx)) (P(x)(cos x + sin x) - Q(x)(sin x - cos x))`, with rational approximations of `P` and
`Q` on four ranges.
-/

namespace PulseFit.Double

/-- The polynomial with these coefficients, the constant first. -/
def horner (coefficients : List Float) (z : Float) : Float :=
  coefficients.foldr (fun c rest => c + z * rest) 0.0

/-- A rational function: numerator and denominator. -/
structure Ratio where
  top : List Float
  bottom : List Float

/-- The value of a rational function. -/
def Ratio.eval (r : Ratio) (z : Float) : Float := horner r.top z / horner r.bottom z

/-- The approximations of `P` and `Q` from 8 on. -/
def besselFar : Ratio × Ratio :=
  (⟨[0.0, -7.03124999999900357484e-02, -8.08167041275349795626e+00,
      -2.57063105679704847262e+02, -2.48521641009428822144e+03, -5.25304380490729545272e+03],
    [1.0, 1.16534364619668181717e+02, 3.83374475364121826715e+03, 4.05978572648472545552e+04,
      1.16752972564375915681e+05, 4.76277284146730962675e+04]⟩,
   ⟨[0.0, 7.32421874999935051953e-02, 1.17682064682252693899e+01, 5.57673380256401856059e+02,
      8.85919720756468632317e+03, 3.70146267776887834771e+04],
    [1.0, 1.63776026895689824414e+02, 8.09834494656449805916e+03, 1.42538291419120476348e+05,
      8.03309257119514397345e+05, 8.40501579819060512818e+05, -3.43899293537866615225e+05]⟩)

/-- The approximations of `P` and `Q` from 4.5454 to 8. -/
def besselMiddle : Ratio × Ratio :=
  (⟨[-1.14125464691894502584e-11, -7.03124940873599280078e-02, -4.15961064470587782438e+00,
      -6.76747652265167261021e+01, -3.31231299649172967747e+02, -3.46433388365604912451e+02],
    [1.0, 6.07539382692300335975e+01, 1.05125230595704579173e+03, 5.97897094333855784498e+03,
      9.62544514357774460223e+03, 2.40605815922939109441e+03]⟩,
   ⟨[1.84085963594515531381e-11, 7.32421766612684765896e-02, 5.83563508962056953777e+00,
      1.35111577286449829671e+02, 1.02724376596164097464e+03, 1.98997785864605384631e+03],
    [1.0, 8.27766102236537761883e+01, 2.07781416421392987104e+03, 1.88472887785718085070e+04,
      5.67511122894947329769e+04, 3.59767538425114471465e+04, -5.35434275601944773371e+03]⟩)

/-- The approximations of `P` and `Q` from 2.857 to 4.5454. -/
def besselNear : Ratio × Ratio :=
  (⟨[-2.54704601771951915620e-09, -7.03119616381481654654e-02, -2.40903221549529611423e+00,
      -2.19659774734883086467e+01, -5.80791704701737572236e+01, -3.14479470594888503854e+01],
    [1.0, 3.58560338055209726349e+01, 3.61513983050303863820e+02, 1.19360783792111533330e+03,
      1.12799679856907414432e+03, 1.73580930813335754692e+02]⟩,
   ⟨[4.37741014089738620906e-09, 7.32411180042911447163e-02, 3.34423137516170720929e+00,
      4.26218440745412650017e+01, 1.70808091340565596283e+02, 1.66733948696651168575e+02],
    [1.0, 4.87588729724587182091e+01, 7.09689221056606015736e+02, 3.70414822620111362994e+03,
      6.46042516752568917582e+03, 2.51633368920368957333e+03, -1.49247451836156386662e+02]⟩)

/-- The approximations of `P` and `Q` from 2 to 2.857. -/
def besselNext : Ratio × Ratio :=
  (⟨[-8.87534333032526411254e-08, -7.03030995483624743247e-02, -1.45073846780952986357e+00,
      -7.63569613823527770791e+00, -1.11931668860356747786e+01, -3.23364579351335335033e+00],
    [1.0, 2.22202997532088808441e+01, 1.36206794218215208048e+02, 2.70470278658083486789e+02,
      1.53875394208320329881e+02, 1.46576176948256193810e+01]⟩,
   ⟨[1.50444444886983272379e-07, 7.32234265963079278272e-02, 1.99819174093815998816e+00,
      1.44956029347885735348e+01, 3.16662317504781540833e+01, 1.62527075710929267416e+01],
    [1.0, 3.03655848355219184498e+01, 2.69348118608049844624e+02, 8.44783757595320139444e+02,
      8.82935845112488550512e+02, 2.12666388511798828631e+02, -5.31095493882666946917e+00]⟩)

/-- The correction below 2. -/
def besselCore : Ratio :=
  ⟨[0.0, 1.56249999999999947958e-02, -1.89979294238854721751e-04, 1.82954049532700665670e-06,
      -4.61832688532103189199e-09],
    [1.0, 1.56191029464890010492e-02, 1.16926784663337450260e-04, 5.13546550207318111446e-07,
      1.16614003333790000205e-09]⟩

/-- The upper half of the bits of a number's magnitude, on which the ranges are told apart. -/
def highWord (x : Float) : Nat := (x.toBits.toNat / 0x100000000) % 0x80000000

/-- The approximations of `P` and `Q` for a number from 2 on. -/
def besselRatios (word : Nat) : Ratio × Ratio :=
  if 0x40200000 ≤ word then besselFar
  else if 0x40122E8B ≤ word then besselMiddle
  else if 0x4006DB6D ≤ word then besselNear
  else besselNext

/-- The function from 2 on.  Where `cos x + sin x` or `sin x - cos x` cancels, it is recovered from
the other and `-cos 2x`. -/
def besselOscillating (word : Nat) (x : Float) : Float :=
  let s := x.sin
  let c := x.cos
  let root := 5.64189583547756279280e-01
  if 0x7fe00000 ≤ word then root * (s + c) / x.sqrt
  else
    let z := -(2.0 * x).cos
    let (sum, difference) :=
      if s * c < 0.0 then (z / (s - c), s - c) else (s + c, z / (s + c))
    if 0x48000000 ≤ word then root * sum / x.sqrt
    else
      let (p, q) := besselRatios word
      let w := 1.0 / (x * x)
      root * ((1.0 + p.eval w) * sum - (-0.125 + q.eval w) / x * difference) / x.sqrt

/-- The Bessel function of the first kind of order zero. -/
def besselJ0 (x : Float) : Float :=
  let word := highWord x
  if 0x7ff00000 ≤ word then 1.0 / (x * x)
  else
    let x := x.abs
    if 0x40000000 ≤ word then besselOscillating word x
    else if 0x3f200000 ≤ word then
      let z := x * x
      (1.0 + x / 2.0) * (1.0 - x / 2.0) + z * besselCore.eval z
    else if 0x38000000 ≤ word then 1.0 - 0.25 * x * x
    else 1.0 - x

end PulseFit.Double
