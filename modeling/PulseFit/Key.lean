import PulseFit.Channel
import PulseFit.Quantity
import PulseFit.Text

/-!
# Key — the names of a model's parameters

A key says what a parameter measures and where: a lens quantity stands alone, the background has a
channel, a shape quantity has a pulse and a channel.  `Key.text` writes a key, `Key.parse` reads
it.  A text is cut from the right, since the names of quantities hold underscores themselves.
-/

namespace PulseFit

/-- A parameter of a model. -/
inductive Key where
  | lens (quantity : LensQuantity)
  | background (channel : Channel)
  | shape (quantity : ShapeQuantity) (pulse : Nat) (channel : Channel)
  deriving DecidableEq, Repr

/-- Why a text or an index names no parameter. -/
inductive KeyError where
  | unknownField (text : String)
  | unknownChannel (text : String)
  | malformed (text : String)
  | channelIndex (index : Nat)
  deriving DecidableEq, Repr

namespace KeyError

/-- The wording of the error. -/
def message : KeyError → String
  | unknownField text => "unknown parameter field in key '" ++ text ++ "'"
  | unknownChannel text => "unknown channel suffix in key '" ++ text ++ "'"
  | malformed text => "malformed parameter key '" ++ text ++ "'"
  | channelIndex index => "channel index " ++ toString index ++ " is out of range 0..=3"

end KeyError

namespace Channel

/-- The band at an index, or the error that there is none. -/
def ofIndex (i : Nat) : Except KeyError Channel :=
  match ofIndex? i with
  | some ch => .ok ch
  | none => .error (.channelIndex i)

end Channel

namespace Key

/-- Pulse numbers are below this bound. -/
def pulseBound : Nat := 0x10000000000000000

/-- What the parameter measures. -/
def quantity : Key → Quantity
  | lens q => .lens q
  | background _ => .background
  | shape q _ _ => .shape q

/-- The pulse of a shape parameter. -/
def pulse? : Key → Option Nat
  | shape _ i _ => some i
  | _ => none

/-- The channel of a parameter that is not shared. -/
def channel? : Key → Option Channel
  | lens _ => none
  | background ch => some ch
  | shape _ _ ch => some ch

/-- The characters of a key: the quantity, the pulse and the channel, joined by underscores. -/
def chars : Key → List Char
  | lens q => q.name.toList
  | background ch => Quantity.background.name.toList ++ ['_', ch.letter]
  | shape q i ch => q.name.toList ++ '_' :: Nat.toDigits 10 i ++ ['_', ch.letter]

/-- The text of a key. -/
def text (k : Key) : String := String.ofList k.chars

/-- The pulse number that ends a text after its last underscore.  The outer `none` says that the
digits, of which there may be none, are no number below the bound; `some (front, none)` that the
text ends in no run of digits. -/
def splitPulse? (body : List Char) : Option (List Char × Option Nat) :=
  match Text.splitLast? '_' body with
  | none => some (body, none)
  | some (front, back) =>
    if back.all (·.isDigit) then
      if back ≠ [] ∧ Nat.ofDigitChars 10 back 0 < pulseBound then
        some (front, some (Nat.ofDigitChars 10 back 0))
      else none
    else some (body, none)

/-- The key of a quantity with the pulse and the channel that its text gives, if these are the
parts that the quantity asks for. -/
def ofParts? (q : Quantity) (pulse? : Option Nat) (ch : Channel) : Option Key :=
  match q, pulse? with
  | .background, none => some (background ch)
  | .shape q, some i => if i = 0 then none else some (shape q i ch)
  | _, _ => none

/-- Reads a key. -/
def parse (text : String) : Except KeyError Key :=
  match Quantity.ofName? text with
  | some (.lens q) => .ok (lens q)
  | some _ => .error (.malformed text)
  | none =>
    match Text.splitLast? '_' text.toList with
    | none => .error (.unknownField text)
    | some (body, suffix) =>
      match Channel.ofSuffix? suffix with
      | none => .error (.unknownChannel text)
      | some ch =>
        match splitPulse? body with
        | none => .error (.malformed text)
        | some (name, pulse?) =>
          match Quantity.ofName? (String.ofList name) with
          | none => .error (.unknownField text)
          | some q =>
            match ofParts? q pulse? ch with
            | none => .error (.malformed text)
            | some k => .ok k

/-- The place of the quantity in the list of all quantities. -/
def rank : Key → Nat
  | lens .timeDelay => 0
  | lens .magnificationRatio => 1
  | background _ => 2
  | shape q _ _ => 3 + q.rank

/-- Keys are ordered by quantity, then pulse, then channel. -/
def before (k l : Key) : Bool :=
  let pulse (k : Key) := k.pulse?.getD 0
  let band (k : Key) := (k.channel?.map Channel.index).getD 0
  k.rank < l.rank ||
    (k.rank == l.rank && (pulse k < pulse l || (pulse k == pulse l && band k ≤ band l)))

/-- The keys in order, each once. -/
def sorted (keys : List Key) : List Key := (keys.mergeSort before).eraseReps

end Key

end PulseFit
