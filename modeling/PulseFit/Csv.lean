import PulseFit.BinnedCounts
import PulseFit.Decimal.Read

/-!
# Csv — tables of bins and counts

A table is a text of records, one to a line, of fields separated by commas.  A field may stand in
quotes, inside of which a quote is written twice and line ends are text.  The first record names
the columns.
-/

namespace PulseFit.Csv

/-- Where in a field the reader stands. -/
inductive State where
  /-- Before the first character of a field. -/
  | start
  /-- In a field without quotes, or after its closing quote. -/
  | plain
  | quoted
  /-- After a quote in a quoted field: its end, or the first of two. -/
  | quote

/-- Whether a character ends a record. -/
def isLineEnd (c : Char) : Bool := c == '\n' || c == '\r'

/-- The fields of one record and the text after it.  `field` and `fields` hold the characters and
the fields read so far, the latest first. -/
def record (state : State) (field : List Char) (fields : List (List Char)) :
    List Char → List (List Char) × List Char
  | [] => ((field.reverse :: fields).reverse, [])
  | c :: rest =>
    match state with
    | .quoted =>
      if c = '"' then record .quote field fields rest else record .quoted (c :: field) fields rest
    | .start =>
      if c = '"' then record .quoted field fields rest
      else if c = ',' then record .start [] (field.reverse :: fields) rest
      else if isLineEnd c then ((field.reverse :: fields).reverse, rest)
      else record .plain (c :: field) fields rest
    | .plain =>
      if c = ',' then record .start [] (field.reverse :: fields) rest
      else if isLineEnd c then ((field.reverse :: fields).reverse, rest)
      else record .plain (c :: field) fields rest
    | .quote =>
      if c = '"' then record .quoted ('"' :: field) fields rest
      else if c = ',' then record .start [] (field.reverse :: fields) rest
      else if isLineEnd c then ((field.reverse :: fields).reverse, rest)
      else record .plain (c :: field) fields rest

/-- The records of a text; empty lines are none.  `fuel` bounds their number. -/
def records : (fuel : Nat) → List Char → List (List (List Char))
  | 0, _ => []
  | fuel + 1, text =>
    match text.dropWhile isLineEnd with
    | [] => []
    | text =>
      let (fields, rest) := record .start [] [] text
      fields :: records fuel rest

/-- The columns that a table of counts has to have. -/
def columnNames : List String :=
  ["bin_left", "bin_right", "counts_a", "counts_b", "counts_c", "counts_d"]

/-- The places of the columns in a header; `none` where a column is missing or named twice. -/
def places? (header : List (List Char)) : Option (List Nat) :=
  columnNames.mapM fun name =>
    let name := name.toList
    if header.count name = 1 then some (header.idxOf name) else none

/-- The values of a record at the places of the columns. -/
def values? (places : List Nat) (fields : List (List Char)) : Option (List Float) :=
  places.mapM fun i => fields[i]?.bind Decimal.float?

/-- Left edges, right edges and rows of counts. -/
structure Bins where
  left : Array Float
  right : Array Float
  counts : Table Float

/-- The bins of rows of values: two edges, then the counts. -/
def binsOfRows (rows : List (List Float)) : Bins where
  left := (rows.map (·.getD 0 0.0)).toArray
  right := (rows.map (·.getD 1 0.0)).toArray
  counts := Table.ofRows Channel.all.length (rows.map (·.drop 2))

/-- The text without a byte-order mark. -/
def withoutMark : List Char → List Char
  | '\uFEFF' :: rest => rest
  | text => text

/-- The bins of a table.  All records have to have as many fields as the header, and the header has
to name the columns unless there are no other records. -/
def bins? (text : String) : Option Bins :=
  let text := withoutMark text.toList
  match records (text.length + 1) text with
  | [] => some (binsOfRows [])
  | header :: rows =>
    if rows.any (·.length ≠ header.length) then none
    else if rows.isEmpty then some (binsOfRows [])
    else do
      let places ← places? header
      some (binsOfRows (← rows.mapM (values? places)))

end PulseFit.Csv
