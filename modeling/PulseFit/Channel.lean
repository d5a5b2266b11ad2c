/-!
# Channel — the four energy bands of the detector

Counts are recorded in every band on its own, and the parameters of a band carry its letter at
the end of their names, so parameters of two bands never share a name.
-/

namespace PulseFit

/-- An energy band of the detector. -/
inductive Channel where
  | a | b | c | d
  deriving DecidableEq, Repr

namespace Channel

/-- The bands in the order of their indices. -/
def all : List Channel := [a, b, c, d]

/-- The column of the band in a table of counts. -/
def index : Channel → Nat
  | a => 0
  | b => 1
  | c => 2
  | d => 3

/-- The letter that ends the names of the band's parameters. -/
def letter : Channel → Char
  | a => 'a'
  | b => 'b'
  | c => 'c'
  | d => 'd'

/-- The band's letter as a text. -/
def suffix (ch : Channel) : String := String.singleton ch.letter

/-- The band's name in a configuration text. -/
def tag (ch : Channel) : String := String.singleton ch.letter.toUpper

/-- The band at an index. -/
def ofIndex? (i : Nat) : Option Channel := all[i]?

/-- The band whose letter is the whole text. -/
def ofSuffix? (text : List Char) : Option Channel :=
  match text with
  | [x] => all.find? (·.letter == x)
  | _ => none

theorem index_lt (ch : Channel) : ch.index < all.length := by cases ch <;> decide

theorem ofIndex?_index (ch : Channel) : ofIndex? ch.index = some ch := by cases ch <;> rfl

theorem ofSuffix?_letter (ch : Channel) : ofSuffix? [ch.letter] = some ch := by cases ch <;> rfl

end Channel

end PulseFit
