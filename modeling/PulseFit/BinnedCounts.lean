import PulseFit.Channel
import PulseFit.Scalar

/-!
# BinnedCounts — photons counted in time bins

Counts stand in a table with a row for each bin and a column for each channel.  `ofBins?` accepts
bins of positive width with a matching table.  Tables that were read from a text may have any
shape; what needs columns or matching lengths then has no answer.
-/

namespace PulseFit

/-- A table of numbers, row by row. -/
structure Table (α : Type) where
  rows : Nat
  columns : Nat
  data : Array α

namespace Table

variable {α : Type} [Scalar α]

/-- The table of rows of equal length; `columns` is the length where there are no rows. -/
def ofRows (columns : Nat) (rows : List (List α)) : Table α :=
  { rows := rows.length, columns, data := rows.flatten.toArray }

/-- The entries of a row. -/
def row (t : Table α) (i : Nat) : Array α :=
  t.data.extract (i * t.columns) ((i + 1) * t.columns)

/-- The entries of a column, if there is one. -/
def column? (t : Table α) (j : Nat) : Option (Array α) :=
  if j < t.columns then
    some (Array.ofFn fun (i : Fin t.rows) => t.data.getD (i.val * t.columns + j) 0.0)
  else none

end Table

/-- Counts in bins between left and right edges. -/
structure BinnedCounts (α : Type) where
  left : Array α
  right : Array α
  counts : Table α

namespace BinnedCounts

variable {α : Type} [Scalar α]

/-- Whether the edges match the table and every bin has a positive width. -/
def valid (b : BinnedCounts α) : Bool :=
  b.left.size == b.right.size && b.counts.rows == b.left.size &&
    b.counts.columns == Channel.all.length &&
    (b.left.toList.zip b.right.toList).all fun (l, r) => decide (l < r)

/-- The series of bins and counts, if they are valid. -/
def ofBins? (left right : Array α) (counts : Table α) : Option (BinnedCounts α) :=
  let b : BinnedCounts α := ⟨left, right, counts⟩
  if b.valid then some b else none

/-- The number of bins. -/
def size (b : BinnedCounts α) : Nat := b.left.size

/-- Two arrays combined entry by entry.  An array of one entry is repeated to the length of the
other; other lengths have to be equal. -/
@[specialize] def combine? (f : α → α → α) (xs ys : Array α) : Option (Array α) :=
  if xs.size = ys.size then some (xs.zipWith f ys)
  else if ys.size = 1 then some (xs.map (f · (ys.getD 0 0.0)))
  else if xs.size = 1 then some (ys.map (f (xs.getD 0 0.0) ·))
  else none

/-- The widths of the bins. -/
def widths? (b : BinnedCounts α) : Option (Array α) := combine? (· - ·) b.right b.left

/-- The counts of a channel. -/
def counts? (b : BinnedCounts α) (ch : Channel) : Option (Array α) := b.counts.column? ch.index

/-- The counts of a channel per unit of time. -/
def rates? (b : BinnedCounts α) (ch : Channel) : Option (Array α) := do
  combine? (· / ·) (← b.counts? ch) (← b.widths?)

/-- The counts of all channels together. -/
def totals (b : BinnedCounts α) : Array α :=
  Array.ofFn fun (i : Fin b.counts.rows) => Scalar.laneSum (b.counts.row i.val)

end BinnedCounts

end PulseFit
