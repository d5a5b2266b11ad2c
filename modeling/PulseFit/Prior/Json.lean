import PulseFit.Json.Fields
import PulseFit.Prior.Bounds

/-!
# Prior.Json — distributions and bounds in configuration texts

A distribution is written as its kind with the range of its values.  Bounds are a record in which
everything but the window may be left out.
-/

namespace PulseFit

open Json (Value)

/-- Why a text holds no distribution. -/
inductive MarginalError where
  /-- The text is not of the right form. -/
  | malformed
  /-- The text has a range on which there is no such distribution. -/
  | improper
  deriving DecidableEq, Repr

namespace Marginal

variable {α : Type} [Scalar α]

/-- The ends of a range: a record of exactly `start` and `end`. -/
def range? (v : Value) : Option (α × α) := do
  let known : Bool := match v with
    | .object members => members.length == 2
    | _ => true
  match ← Json.allFields? ["start", "end"] v with
  | [left, right] => if known then some (← Json.scalar? left, ← Json.scalar? right) else none
  | _ => none

/-- The distribution of a kind on a written range. -/
def ofRange (kind : Option String) (v : Value) : Except MarginalError (Marginal α) :=
  let make? : Option (α → α → Option (Marginal α)) :=
    if kind = some "Uniform" then some uniform?
    else if kind = some "LogUniform" then some logUniform?
    else none
  match make?, (Json.allFields? ["range"] v).bind fun vs => vs.head?.bind range? with
  | some make?, some (left, right) =>
    match make? left right with
    | some m => .ok m
    | none => .error .improper
  | _, _ => .error .malformed

/-- The kind at the front of a text and what follows its colon. -/
def kind? (text : List Char) : Option (Option String × List Char) :=
  match Json.skipBlanks text with
  | '\x7b' :: rest =>
    match Json.skipBlanks rest with
    | '"' :: rest => do
      let (kind, rest) ← Json.quoted? rest
      match Json.skipBlanks rest with
      | ':' :: rest => some (kind, rest)
      | _ => none
    | _ => none
  | _ => none

/-- Whether only the closing brace of a record is left. -/
def closes (text : List Char) : Bool :=
  match Json.skipBlanks text with
  | '\x7d' :: rest => (Json.skipBlanks rest).isEmpty
  | _ => false

/-- Reads a distribution.  The range is judged as soon as it is read, so an improper one is
reported even where the text goes wrong after it. -/
def read (text : String) : Except MarginalError (Marginal α) :=
  match kind? text.toList with
  | none => .error .malformed
  | some (kind, rest) =>
    match Json.readFront? rest with
    | none => .error .malformed
    | some (v, rest) => do
      let m ← ofRange kind v
      if closes rest then .ok m else .error .malformed

/-- The record of a distribution. -/
def toJson (number : α → Value) (m : Marginal α) : Value :=
  let (left, right) := m.support
  let kind := match m with
    | uniform .. => "Uniform"
    | logUniform .. => "LogUniform"
  .record [(kind, .record [("range", .record [
    ("start", Json.ofScalar number left), ("end", Json.ofScalar number right)])])]

end Marginal

namespace Interval

variable {α : Type} [Scalar α]

/-- Reads a list of two numbers. -/
def ofJson? : Value → Option (Interval α)
  | .array [lo, hi] => do some ⟨← Json.scalar? lo, ← Json.scalar? hi⟩
  | _ => none

/-- The list of the two bounds. -/
def toJson (number : α → Value) (i : Interval α) : Value :=
  .array [Json.ofScalar number i.lo, Json.ofScalar number i.hi]

end Interval

namespace Bounds

variable {α : Type} [Scalar α]

/-- The names of the bounds that may be left out, besides the time delay. -/
def optionalNames : List String :=
  ["background", "magnification_ratio", "tau", "xi", "gamma", "nu", "sigma", "scale",
    "sg_amplitude", "sg_lambda", "sg_omega", "bes_amplitude", "bes_omega", "bes_s"]

/-- The bounds that may be left out, in the order of their names. -/
def optional (b : Bounds α) : List (Interval α) :=
  [b.background, b.magnificationRatio, b.tau, b.xi, b.gamma, b.nu, b.sigma, b.scale,
    b.sineAmplitude, b.sineLambda, b.sineOmega, b.besselAmplitude, b.besselOmega, b.besselS]

/-- The bounds with others in place of those that may be left out. -/
def withOptional (b : Bounds α) : List (Interval α) → Bounds α
  | [background, magnificationRatio, tau, xi, gamma, nu, sigma, scale, sineAmplitude, sineLambda,
      sineOmega, besselAmplitude, besselOmega, besselS] =>
    { b with
      background, magnificationRatio, tau, xi, gamma, nu, sigma, scale, sineAmplitude, sineLambda,
      sineOmega, besselAmplitude, besselOmega, besselS }
  | _ => b

/-- A written interval, or the usual one if there is none. -/
def orUsual? (usual : Interval α) : Option Value → Option (Interval α)
  | none => some usual
  | some v => Interval.ofJson? v

/-- The bounds of the time delay, which may be null. -/
def delay? : Option Value → Option (Option (Interval α))
  | none => some none
  | some .null => some none
  | some v => (Interval.ofJson? v).map some

/-- Reads bounds; they may be improper. -/
def ofJson? (v : Value) : Option (Bounds α) := do
  match ← Json.fields? ("pulse_start" :: "pulse_end" :: "time_delay" :: optionalNames) v with
  | some start :: some stop :: delay :: others =>
    let usual := ofWindow ⟨← Json.scalar? start, ← Json.scalar? stop⟩
    let timeDelay ← delay? delay
    let others ← (usual.optional.zip others).mapM fun (i, v) => orUsual? i v
    some { usual.withOptional others with timeDelay }
  | _ => none

/-- The record of bounds. -/
def toJson (number : α → Value) (b : Bounds α) : Value :=
  .record (
    [("pulse_start", Json.ofScalar number b.window.lo),
      ("pulse_end", Json.ofScalar number b.window.hi)] ++
    (b.timeDelay.map fun i => ("time_delay", i.toJson number)).toList ++
    optionalNames.zip (b.optional.map (·.toJson number)))

/-- Whether these are the usual bounds for their window. -/
def isUsual (b : Bounds α) : Bool :=
  let usual := ofWindow b.window
  b.timeDelay.isNone && (b.optional.zip usual.optional).all fun (i, j) => i.same j

end Bounds

end PulseFit
