import PulseFit.Scalar

/-!
# Draws — random numbers as a stream

A computation that needs random numbers in `[0, 1)` takes them from a stream, one after the other,
and returns the stream with the number of those used.
-/

namespace PulseFit

/-- A stream of random numbers, some of which are used up. -/
structure Draws (α : Type) where
  value : Nat → α
  used : Nat := 0

namespace Draws

variable {α : Type}

/-- The next number. -/
def next (d : Draws α) : α × Draws α := (d.value d.used, { d with used := d.used + 1 })

/-- A stream that repeats a list of numbers. -/
def cycle (xs : Array α) (empty : α) : Draws α := ⟨fun i => xs.getD (i % xs.size) empty, 0⟩

/-- The scrambled word of a counter: two rounds of shift and multiply, and a last shift. -/
def mix (z : UInt64) : UInt64 :=
  let z := (z ^^^ (z >>> 30)) * 0xBF58476D1CE4E5B9
  let z := (z ^^^ (z >>> 27)) * 0x94D049BB133111EB
  z ^^^ (z >>> 31)

/-- The word of a seed at a place of its stream; counters are a fixed odd step apart. -/
def word (seed : UInt64) (i : Nat) : UInt64 :=
  mix (seed + UInt64.ofNat (i + 1) * 0x9E3779B97F4A7C15)

/-- The stream of a seed: the upper 53 bits of each word as a fraction. -/
def ofSeed [Scalar α] (seed : UInt64) : Draws α where
  value i := Scalar.ofNat (word seed i >>> 11).toNat / Scalar.ofNat 0x20000000000000

end Draws

end PulseFit
