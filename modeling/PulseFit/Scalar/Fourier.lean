/-!
# Scalar.Fourier — circular convolution in double precision

The transform of `2^k` numbers is built from the transforms of its even and of its odd entries.
The product of two transforms, transformed back, is the circular convolution times the length.
-/

namespace PulseFit.Double

/-- A complex number in double precision. -/
structure Complex where
  re : Float
  im : Float

namespace Complex

/-- The sum. -/
def add (z w : Complex) : Complex := ⟨z.re + w.re, z.im + w.im⟩

/-- The difference. -/
def sub (z w : Complex) : Complex := ⟨z.re - w.re, z.im - w.im⟩

/-- The product. -/
def mul (z w : Complex) : Complex := ⟨z.re * w.re - z.im * w.im, z.re * w.im + z.im * w.re⟩

/-- The point of the unit circle at `k / n` of a turn. -/
def unitRoot (k n : Nat) : Complex :=
  let angle := 2.0 * 3.14159265358979311600e+00 * Float.ofNat k / Float.ofNat n
  ⟨angle.cos, angle.sin⟩

/-- The mirror image in the real line. -/
def conj (z : Complex) : Complex := ⟨z.re, -z.im⟩

end Complex

/-- The entries at even places and the entries at odd places. -/
def alternate {β : Type} : List β → List β × List β
  | [] => ([], [])
  | x :: rest =>
    let (evens, odds) := alternate rest
    (x :: odds, evens)

/-- The Fourier transform of `2^level` numbers.  With `forward` the angles run backwards. -/
def transform (forward : Bool) : (level : Nat) → List Complex → List Complex
  | 0, xs => xs
  | level + 1, xs =>
    let (evens, odds) := alternate xs
    let e := transform forward level evens
    let o := (transform forward level odds).mapIdx fun k z =>
      let root := Complex.unitRoot k (Nat.pow 2 (level + 1))
      (if forward then root.conj else root).mul z
    e.zipWith Complex.add o ++ e.zipWith Complex.sub o

/-- The circular convolution of two arrays of one length `2^k`, times that length. -/
def circular (a v : Array Float) : Array Float :=
  let level := a.size.log2
  let spectrum (xs : Array Float) := transform true level (xs.toList.map (⟨·, 0.0⟩))
  let product := (spectrum a).zipWith Complex.mul (spectrum v)
  ((transform false level product).map (·.re)).toArray

end PulseFit.Double
