import PulseFit.Rate.Profile

/-!
# Rate.Convolution — convolution trimmed to the length of its first argument

The full convolution of arrays of lengths `n` and `m` has `n + m - 1` entries.  The `n` entries
kept start at `(m - 1) / 2`, so a symmetric kernel leaves a signal in place.  Short arrays are
summed directly; long ones are padded with zeros to a power of two that leaves no room for
wrap-around and convolved circularly, in buffers that stay from call to call.  A difference of
indices below zero, or a place outside an array, gives no result.
-/

namespace PulseFit.Rate

variable {α : Type} [Scalar α]

/-- From this length of both arrays on, the circular convolution is used. -/
def circularLength : Nat := 64

/-- The difference of two indices; `none` below zero. -/
@[inline] def difference? (i j : Nat) : Option Nat := if j ≤ i then some (i - j) else none

/-- The first kept entry of the full convolution with an array of length `m`. -/
def centre? (m : Nat) : Option Nat := (difference? m 1).map (· / 2)

/-! ## Direct sums -/

/-- The product of the entries at places `i` and `j - i`. -/
@[specialize] def product? (a v : Array α) (j i : Nat) : Option α := do
  return (← a[i]?) * (← v[← difference? j i]?)

/-- The entry `j` of the full convolution, as a sum over those entries of `a` that meet an entry
of `v`. -/
@[specialize] def fullEntry? (a v : Array α) (j : Nat) : Option α := do
  let first := j - (← difference? v.size 1)
  let last := min j (← difference? a.size 1)
  (List.range' first (last + 1 - first)).foldlM (fun sum i => (sum + ·) <$> product? a v j i) 0.0

/-- Adds `factor` times the kept entries, by direct sums. -/
@[specialize] def addDirect? (a v : Array α) (factor : α) (out : Array α) :
    Option (Array α) := do
  let offset ← centre? v.size
  let sums ← out.toList.zipIdx.mapM fun (y, k) =>
    (y + factor * ·) <$> fullEntry? a v (k + offset)
  return sums.toArray

/-! ## Circular convolution -/

/-- The exponent of the least power of two that is not below `n`. -/
def level (n : Nat) : Nat := if n ≤ 1 then 0 else (n - 1).log2 + 1

/-- Two buffers for circular convolutions of one length.  They hold what the last one left. -/
structure Workspace (α : Type) where
  length : Nat
  first : Vector α length
  second : Vector α length

namespace Workspace

/-- New buffers. -/
def ofLength (length : Nat) : Workspace α :=
  ⟨length, Vector.replicate length 0.0, Vector.replicate length 0.0⟩

/-- The buffers that were kept if they have the length, else new ones. -/
def ofKept (kept : Option (Workspace α)) (length : Nat) : Workspace α :=
  match kept with
  | some w => if w.length = length then w else ofLength length
  | none => ofLength length

end Workspace

/-- A buffer with an array written over its front and zeros over the rest; `none` if the array is
longer. -/
@[specialize] def load? {length : Nat} (buffer : Vector α length) (xs : Array α) :
    Option (Vector α length) :=
  if h : xs.size ≤ length then
    let front := (buffer.toArray.extract 0 xs.size).zipWith (fun _ x => x) xs
    let rest := (buffer.toArray.extract xs.size).map fun _ => 0.0
    some ⟨front ++ rest, by simp [front, rest, h]⟩
  else none

/-- A buffer with the entries of an array written over it. -/
@[specialize] def overwrite {length : Nat} (buffer : Vector α length) (xs : Array α) :
    Vector α length :=
  buffer.mapIdx fun i x => xs.getD i x

/-- The entries of an array from a place on, as many as asked for. -/
def slice? (xs : Array α) (start count : Nat) : Option (Array α) :=
  if start + count ≤ xs.size then some (xs.extract start (start + count)) else none

/-- Adds `factor` times the kept entries, by a circular convolution in the buffers.  The result of
the convolution is left in the first of them. -/
@[specialize] def addCircular? (w : Workspace α) (a v : Array α) (factor : α) (out : Array α) :
    Option (Array α × Workspace α) := do
  let first ← load? w.first a
  let second ← load? w.second v
  let full := overwrite first (Scalar.circular first.toArray second.toArray)
  let entries ← slice? full.toArray (← centre? v.size) a.size
  let norm := factor / Scalar.ofNat w.length
  return (out.zipWith (fun y x => y + norm * x) entries, ⟨w.length, full, second⟩)

/-! ## Either way -/

/-- Adds `factor` times the trimmed convolution of `a` and `v` to `out`, with the buffers that an
earlier call has kept; `none` unless `out` has the length of `a`. -/
@[specialize] def addConvolutionIn? (kept : Option (Workspace α)) (a v : Array α) (factor : α)
    (out : Array α) : Option (Array α × Option (Workspace α)) :=
  if out.size ≠ a.size then none
  else if a.isEmpty || v.isEmpty then some (out, kept)
  else if min a.size v.size < circularLength then do
    return (← addDirect? a v factor out, kept)
  else do
    let length := Nat.pow 2 (level (← difference? (a.size + v.size) 1))
    let (out, w) ← addCircular? (.ofKept kept length) a v factor out
    return (out, some w)

/-- Adds `factor` times the trimmed convolution of `a` and `v` to `out`, with new buffers. -/
@[specialize] def addConvolution? (a v : Array α) (factor : α) (out : Array α) :
    Option (Array α) :=
  (addConvolutionIn? none a v factor out).map (·.1)

/-- The trimmed convolution. -/
def convolution (a v : Array α) : Array α :=
  (addConvolution? a v 1.0 (Array.replicate a.size 0.0)).getD #[]

/-! ## Components -/

/-- Adds `factor` times a Gaussian of height `scale` convolved with a decay from `start`.  The
Gaussian is centred on the mean time, so the result begins where the decay does. -/
@[specialize] def addDecayingGaussian? (start scale sigma tau : α) (times : Array α) (factor : α)
    (out : Array α) : Option (Array α) :=
  let middle := Scalar.mean times
  let kernel := times.map (gaussian middle 1.0 sigma)
  let tail := times.map (decay tau start)
  addConvolution? kernel tail (factor * scale) out

/-- A Gaussian of height `scale` convolved with a decay from `start`. -/
def decayingGaussian (start scale sigma tau : α) (times : Array α) : Array α :=
  (addDecayingGaussian? start scale sigma tau times 1.0 (Array.replicate times.size 0.0)).getD #[]

/-- Adds `factor` times the rate of a component at the times to `out`; `none` unless there is a
value for each of its quantities and `out` has the length of `times`. -/
@[specialize] def addComponent? (c : Component) (values : List α) (times : Array α) (factor : α)
    (out : Array α) : Option (Array α) :=
  match c, values with
  | .pulse .convolution, [start, scale, sigma, tau] =>
    addDecayingGaussian? start scale sigma tau times factor out
  | _, _ =>
    match profile? c values with
    | some f => if out.size = times.size then some (out.zipWith (fun y t => y + factor * f t) times)
      else none
    | none => none

end PulseFit.Rate
