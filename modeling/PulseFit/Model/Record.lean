import PulseFit.Model.Lists

/-!
# Model.Record — a model as a record of its lists

A record holds the lists of a model, its lens and its name, as a configuration text does.  What can
be asked of a model can be asked of its lists, by searching them; so `Record.key` prints a key from
the lists, number by number.  `Record.ofKey?` fills the lists while it reads a key: a pulse letter
pushes the next number to the list of its shape, a residual letter pushes the latest number.
Nothing is sorted or checked afterwards.
-/

namespace PulseFit

namespace IndexLists

/-- The lists with a number more at the end of that of a component. -/
def push (l : IndexLists) (c : Component) (i : Nat) : IndexLists :=
  .ofFn fun c' => if c' = c then l.get c' ++ [i] else l.get c'

/-- The lists, each sorted. -/
def sorted (l : IndexLists) : IndexLists := .ofFn fun c => (l.get c).mergeSort

/-- The greatest number of a pulse, zero if there is none. -/
def maxPulse (l : IndexLists) : Nat :=
  (PulseShape.all.filterMap fun s => (l.get (.pulse s)).max?).max?.getD 0

/-- The numbers in the residual lists, ascending and each once. -/
def chain (l : IndexLists) : List Nat := l.owners.eraseReps

/-- The first shape whose list holds a number. -/
def shapeAt? (l : IndexLists) (i : Nat) : Option PulseShape :=
  PulseShape.all.find? fun s => (l.get (.pulse s)).contains i

/-- The first residual whose list holds a number. -/
def residualAt? (l : IndexLists) (i : Nat) : Option ResidualShape :=
  ResidualShape.all.find? fun r => (l.get (.residual r)).contains i

/-- For each number up to the greatest the letter of its shape, then that of its residual. -/
def letters (l : IndexLists) : List Char :=
  (List.range' 1 l.maxPulse).flatMap fun i =>
    ((l.shapeAt? i).map PulseShape.letter).toList ++
      ((l.residualAt? i).map ResidualShape.letter).toList

end IndexLists

/-- A model by its lists. -/
structure Record where
  lensed : Bool := false
  name : Option String := none
  lists : IndexLists := {}
  deriving DecidableEq, Repr

/-- The key that is printed from the lists. -/
def Record.key (r : Record) : String :=
  String.ofList (r.lists.letters ++ if r.lensed then [Model.lensLetter] else [])

/-- The record's own name, else its key. -/
def Record.displayName (r : Record) : String := r.name.getD r.key

/-- How far a key has been read into lists. -/
structure Filling where
  lists : IndexLists := {}
  /-- The number of the latest pulse. -/
  latest : Option Nat := none
  /-- For each pulse, whether it has a residual. -/
  owned : List Bool := []
  deriving DecidableEq, Repr

namespace Filling

/-- Takes up one character at a position.  The outer `none` says that `owned` has no entry for the
latest pulse. -/
def letter? (position : Nat) (f : Filling) (x : Char) : Option (Except ModelError Filling) :=
  if x = Model.lensLetter then some (.ok f)
  else
    match PulseShape.ofLetter? x with
    | some shape =>
      let pulse := (f.latest.map (· + 1)).getD 1
      some (.ok {
        lists := f.lists.push (.pulse shape) pulse
        latest := some pulse
        owned := f.owned ++ [false] })
    | none =>
      match ResidualShape.ofLetter? x with
      | none => some (.error (.unknownCharacter position x))
      | some residual =>
        match f.latest with
        | none => some (.error (.orphanResidual position x))
        | some pulse =>
          match f.owned[pulse - 1]? with
          | none => none
          | some true => some (.error (.duplicateResidual pulse))
          | some false =>
            some (.ok { f with
              lists := f.lists.push (.residual residual) pulse
              owned := f.owned.set (pulse - 1) true })

/-- Takes up the characters from a position on. -/
def letters? (position : Nat) (f : Filling) : List Char → Option (Except ModelError Filling)
  | [] => some (.ok f)
  | x :: rest =>
    match f.letter? position x with
    | some (.ok f') => f'.letters? (position + 1) rest
    | some (.error e) => some (.error e)
    | none => none

end Filling

/-- The record of a key, without a name. -/
def Record.ofKey? (key : String) : Option (Except ModelError Record) :=
  (Filling.letters? 0 {} key.toList).map fun r => r.map fun f =>
    { lensed := key.toList.contains Model.lensLetter, lists := f.lists }

namespace Model

/-- The record of a model. -/
def record (m : Model) : Record := { lensed := m.lensed, name := m.name, lists := m.lists }

/-- The model of a record, or what is wrong with its lists. -/
def ofRecord (r : Record) : Except ModelError Model :=
  (ofLists r.lensed r.lists).map fun m => { m with name := r.name }

/-- The model of a key, under a name of its own. -/
def decodeNamed (key name : String) : Except ModelError Model :=
  (decode key).map fun m => m.withName name

end Model

end PulseFit
