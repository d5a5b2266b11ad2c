import PulseFit.Model

/-!
# Model.Letters — model keys

A model key writes a pulse as its upper-case letter, followed by the lower-case letter of its
residual if it has one.  An `L` anywhere marks a lensed model and is no part of the row of pulses;
`letters` writes it at the end.  `decode` reads a key from the left and stops at the first
character that cannot stand where it stands.
-/

namespace PulseFit

/-- Why a text or a set of lists describes no model. -/
inductive ModelError where
  | orphanResidual (position : Nat) (residual : Char)
  | unknownCharacter (position : Nat) (character : Char)
  | duplicateResidual (pulse : Nat)
  | duplicatePulse (pulse : Nat)
  | nonContiguousPulses (expected : Nat) (found : List Nat)
  | residualWithoutPulse (pulse : Nat) (size : Nat)
  deriving DecidableEq, Repr

namespace ModelError

/-- The wording of the error. -/
def message : ModelError → String
  | orphanResidual position residual =>
    "residual '" ++ String.singleton residual ++ "' at position " ++ toString position ++
      " has no preceding pulse to attach to"
  | unknownCharacter position character =>
    "unknown character '" ++ String.singleton character ++ "' at position " ++
      toString position ++ " of the model key"
  | duplicateResidual pulse => "pulse " ++ toString pulse ++ " already owns a residual"
  | duplicatePulse pulse => "pulse " ++ toString pulse ++ " has more than one pulse type"
  | nonContiguousPulses expected found =>
    "pulse indices must be 1..=" ++ toString expected ++ " without gaps, found " ++
      Text.bracketed found
  | residualWithoutPulse pulse size =>
    "residual is attached to pulse " ++ toString pulse ++ ", but the model has only " ++
      toString size ++ " pulses"

end ModelError

namespace Model

/-- The letter of a lensed model. -/
def lensLetter : Char := 'L'

/-- The characters of a pulse in a model key. -/
def pulseLetters (p : Pulse) : List Char :=
  p.shape.letter :: (p.residual.map ResidualShape.letter).toList

/-- The characters of the canonical model key. -/
def letters (m : Model) : List Char :=
  m.pulses.flatMap pulseLetters ++ if m.lensed then [lensLetter] else []

/-- The canonical model key. -/
def key (m : Model) : String := String.ofList m.letters

/-- The model's own name, else its key. -/
def displayName (m : Model) : String := m.name.getD m.key

/-- Reads the pulses of a key from `position` on.  `done` holds the pulses read so far, the latest
first, to which a residual attaches. -/
def scan (position : Nat) (done : List Pulse) : List Char → Except ModelError (List Pulse)
  | [] => .ok done.reverse
  | x :: rest =>
    if x = lensLetter then scan (position + 1) done rest
    else
      match PulseShape.ofLetter? x with
      | some shape => scan (position + 1) ({ shape } :: done) rest
      | none =>
        match ResidualShape.ofLetter? x with
        | none => .error (.unknownCharacter position x)
        | some residual =>
          match done with
          | [] => .error (.orphanResidual position x)
          | latest :: earlier =>
            if latest.residual.isSome then .error (.duplicateResidual done.length)
            else scan (position + 1) ({ latest with residual := some residual } :: earlier) rest

/-- The model of a key, without a name. -/
def decodeLetters (text : List Char) : Except ModelError Model :=
  (scan 0 [] text).map fun pulses => { lensed := text.contains lensLetter, pulses }

/-- The model of a key, without a name. -/
def decode (key : String) : Except ModelError Model := decodeLetters key.toList

end Model

end PulseFit
