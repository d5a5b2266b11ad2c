import PulseFit.Json.Value

/-!
# Json.Reader — reading JSON texts

Each reader takes the front of a text and returns what it read and the rest.  Values nest, and
each level takes a character, so the length of the text bounds the depth.
-/

namespace PulseFit.Json

/-- Blanks between tokens. -/
def isBlank (c : Char) : Bool := c == ' ' || c == '\n' || c == '\t' || c == '\r'

/-- The text without its leading blanks. -/
def skipBlanks (text : List Char) : List Char := text.dropWhile isBlank

/-- The value of a hexadecimal digit. -/
def hexDigit? (c : Char) : Option Nat :=
  if c.isDigit then some (c.toNat - '0'.toNat)
  else if 'a' ≤ c ∧ c ≤ 'f' then some (c.toNat - 'a'.toNat + 10)
  else if 'A' ≤ c ∧ c ≤ 'F' then some (c.toNat - 'A'.toNat + 10)
  else none

/-- Four hexadecimal digits at the front of a text. -/
def hexUnit? : List Char → Option (Nat × List Char)
  | a :: b :: c :: d :: rest => do
    let a ← hexDigit? a
    let b ← hexDigit? b
    let c ← hexDigit? c
    let d ← hexDigit? d
    some (((a * 16 + b) * 16 + c) * 16 + d, rest)
  | _ => none

/-- The character that a backslash and a letter stand for. -/
def shortEscape? : Char → Option Char
  | '"' => some '"'
  | '\\' => some '\\'
  | '/' => some '/'
  | 'b' => some '\x08'
  | 'f' => some '\x0c'
  | 'n' => some '\n'
  | 'r' => some '\r'
  | 't' => some '\t'
  | _ => none

/-- A unit of a quoted text: a character, or an escaped 16-bit unit. -/
inductive Piece where
  | char (c : Char)
  | unit (u : Nat)

/-- The pieces of a quoted text up to its closing quote.  `fuel` bounds their number. -/
def pieces : (fuel : Nat) → List Char → Option (List Piece × List Char)
  | 0, _ => none
  | _, [] => none
  | fuel + 1, c :: rest =>
    if c = '"' then some ([], rest)
    else if c = '\\' then
      match rest with
      | 'u' :: rest => do
        let (u, rest) ← hexUnit? rest
        let (more, rest) ← pieces fuel rest
        some (.unit u :: more, rest)
      | e :: rest => do
        let c ← shortEscape? e
        let (more, rest) ← pieces fuel rest
        some (.char c :: more, rest)
      | [] => none
    else if c.toNat < 0x20 then none
    else do
      let (more, rest) ← pieces fuel rest
      some (.char c :: more, rest)

/-- Whether a unit is the first half of a surrogate pair. -/
def isLeading (u : Nat) : Bool := 0xD800 ≤ u && u < 0xDC00

/-- Whether a unit is the second half of a surrogate pair. -/
def isTrailing (u : Nat) : Bool := 0xDC00 ≤ u && u < 0xE000

/-- The characters that pieces name; `none` where a surrogate lacks its other half. -/
def assemble : List Piece → Option (List Char)
  | [] => some []
  | .char c :: rest => (assemble rest).map (c :: ·)
  | .unit u :: .unit v :: rest =>
    if isLeading u then
      if isTrailing v then
        (assemble rest).map (Char.ofNat (0x10000 + (u - 0xD800) * 0x400 + (v - 0xDC00)) :: ·)
      else none
    else if isTrailing u then none
    else (assemble (.unit v :: rest)).map (Char.ofNat u :: ·)
  | .unit u :: rest =>
    if isLeading u || isTrailing u then none
    else (assemble rest).map (Char.ofNat u :: ·)

/-- A quoted text after its opening quote. -/
def quoted? (text : List Char) : Option (Option String × List Char) := do
  let (ps, rest) ← pieces (text.length + 1) text
  some ((assemble ps).map String.ofList, rest)

/-- The exponent at the front of a text, if there is one.  The outer `none` says that an `e` is
not followed by digits. -/
def exponent? : List Char → Option (Option Int × List Char)
  | e :: rest =>
    if e = 'e' ∨ e = 'E' then
      let (negative, rest) :=
        match rest with
        | '+' :: rest => (false, rest)
        | '-' :: rest => (true, rest)
        | _ => (false, rest)
      let digits := rest.takeWhile Char.isDigit
      let size : Int := Nat.ofDigitChars 10 digits 0
      if digits.isEmpty then none
      else some (some (if negative then -size else size), rest.dropWhile Char.isDigit)
    else some (none, e :: rest)
  | [] => some (none, [])

/-- The fraction at the front of a text, empty if there is none.  The outer `none` says that a
point is not followed by digits. -/
def fraction? : List Char → Option (List Char × List Char)
  | '.' :: rest =>
    let digits := rest.takeWhile Char.isDigit
    if digits.isEmpty then none else some (digits, rest.dropWhile Char.isDigit)
  | text => some ([], text)

/-- A numeral at the front of a text: a leading zero stands alone before the point. -/
def numeral? (text : List Char) : Option (Numeral × List Char) :=
  let (negative, body) :=
    match text with
    | '-' :: rest => (true, rest)
    | _ => (false, text)
  let whole := body.takeWhile Char.isDigit
  if whole.isEmpty || (whole.head? == some '0' && whole.length ≠ 1) then none
  else do
    let (fraction, rest) ← fraction? (body.dropWhile Char.isDigit)
    let (exponent, rest) ← exponent? rest
    some ({ negative, whole, fraction, exponent }, rest)

/-- The rest of a text after a fixed word. -/
def word? (word : List Char) (text : List Char) : Option (List Char) :=
  if word.isPrefixOf text then some (text.drop word.length) else none

mutual

/-- A value at the front of a text. -/
def value? : (fuel : Nat) → List Char → Option (Value × List Char)
  | 0, _ => none
  | fuel + 1, text =>
    match skipBlanks text with
    | '"' :: rest => (quoted? rest).map fun (s, rest) => (.string s, rest)
    | '[' :: rest =>
      match skipBlanks rest with
      | ']' :: rest => some (.array [], rest)
      | _ => (items? fuel rest).map fun (vs, rest) => (.array vs, rest)
    | '\x7b' :: rest =>
      match skipBlanks rest with
      | '\x7d' :: rest => some (.object [], rest)
      | _ => (members? fuel rest).map fun (ms, rest) => (.object ms, rest)
    | 't' :: rest => (word? "rue".toList rest).map (.bool true, ·)
    | 'f' :: rest => (word? "alse".toList rest).map (.bool false, ·)
    | 'n' :: rest => (word? "ull".toList rest).map (.null, ·)
    | text => (numeral? text).map fun (n, rest) => (.number n, rest)

/-- The items of an array and its closing bracket. -/
def items? : (fuel : Nat) → List Char → Option (List Value × List Char)
  | 0, _ => none
  | fuel + 1, text => do
    let (v, rest) ← value? fuel text
    match skipBlanks rest with
    | ',' :: rest => (items? fuel rest).map fun (vs, rest) => (v :: vs, rest)
    | ']' :: rest => some ([v], rest)
    | _ => none

/-- The members of an object and its closing brace. -/
def members? : (fuel : Nat) → List Char → Option (List (Option String × Value) × List Char)
  | 0, _ => none
  | fuel + 1, text =>
    match skipBlanks text with
    | '"' :: rest => do
      let (name, rest) ← quoted? rest
      match skipBlanks rest with
      | ':' :: rest =>
        let (v, rest) ← value? fuel rest
        match skipBlanks rest with
        | ',' :: rest => (members? fuel rest).map fun (ms, rest) => ((name, v) :: ms, rest)
        | '\x7d' :: rest => some ([(name, v)], rest)
        | _ => none
      | _ => none
    | _ => none

end

/-- A value at the front of a text and the rest after it. -/
def readFront? (text : List Char) : Option (Value × List Char) := value? (2 * text.length + 2) text

/-- The value of a whole text, blanks around it allowed. -/
def read? (text : String) : Option Value :=
  match readFront? text.toList with
  | some (v, rest) => if (skipBlanks rest).isEmpty then some v else none
  | none => none

end PulseFit.Json
