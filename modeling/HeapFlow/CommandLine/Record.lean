/-!
# Comma-separated records

A list on the command line is a record of fields divided by commas. A field between double quotes
may hold commas and line ends, and a quote in it is written twice. Only the first line with
something on it is read, unless a quoted field runs over its end.

The reader goes through the text once and keeps the position of the next character: lines count from
one, and columns count the bytes of a line from one.
-/

namespace HeapFlow.CommandLine

structure Place where
  line : Nat
  column : Nat
deriving DecidableEq, Repr

/-- The place after a character that does not end a line. -/
def Place.after (p : Place) (c : Char) : Place :=
  { p with column := p.column + c.utf8Size }

def Place.back (p : Place) : Place :=
  { p with column := p.column - 1 }

/-- Why a text is no record. -/
inductive RecordError where
  /-- There is nothing on any line. -/
  | empty
  /-- A quote stands in a field without quotes, in the record that starts on the given line. -/
  | bareQuote (start : Nat) (place : Place)
  /-- A quoted field goes on after its end, or does not end. -/
  | strayQuote (start : Nat) (place : Place)
deriving DecidableEq, Repr

namespace RecordError

def placeText (start : Nat) (p : Place) : String :=
  (if start = p.line then "" else "record on line " ++ toString start ++ "; ") ++
  "parse error on line " ++ toString p.line ++ ", column " ++ toString p.column ++ ": "

def message : RecordError → String
  | empty => "EOF"
  | bareQuote start p => placeText start p ++ "bare \" in non-quoted-field"
  | strayQuote start p => placeText start p ++ "extraneous or missing \" in quoted-field"

end RecordError

/-- What the reader of a record is in. -/
inductive FieldState where
  | start
  | plain
  | quoted
  /-- After a quote in a quoted field. -/
  | closed
deriving DecidableEq, Repr

/-- Makes each line end a single character, and drops a carriage return at the end of the text. -/
def normalLineEnds : List Char → List Char
  | [] => []
  | '\r' :: '\n' :: s => '\n' :: normalLineEnds s
  | c :: s => if c = '\r' && s.isEmpty then [] else c :: normalLineEnds s

/-- Reads the rest of a record: `first` is the line on which it starts, `place` the next place, and
`field` the characters of the current field, last one first. -/
def readFields (first : Nat) : FieldState → Place → (field : List Char) → List Char →
    Except RecordError (List String)
  | .quoted, place, _, [] => .error (.strayQuote first place)
  | _, _, field, [] => .ok [String.ofList field.reverse]
  | .quoted, place, field, c :: s =>
    if c = '"' then readFields first .closed (place.after c) field s
    else if c = '\n' && !s.isEmpty then
      readFields first .quoted ⟨place.line + 1, 1⟩ (c :: field) s
    else readFields first .quoted (place.after c) (c :: field) s
  | state, place, field, c :: s =>
    if c = '\n' then .ok [String.ofList field.reverse]
    else if c = ',' then do
      pure (String.ofList field.reverse :: (← readFields first .start (place.after c) [] s))
    else match state, c == '"' with
      | .start, true => readFields first .quoted (place.after c) [] s
      | .closed, true => readFields first .quoted (place.after c) (c :: field) s
      | .closed, false => .error (.strayQuote first place.back)
      | _, true => .error (.bareQuote first place)
      | _, false => readFields first .plain (place.after c) (c :: field) s

/-- Reads the first record after lines with nothing on them. -/
def readRecordFrom : (line : Nat) → List Char → Except RecordError (List String)
  | _, [] => .error .empty
  | line, c :: s =>
    if c = '\n' then readRecordFrom (line + 1) s
    else readFields line .start ⟨line, 1⟩ [] (c :: s)

/-- Reads a list. The empty text is the empty list. -/
def readList (text : String) : Except RecordError (List String) :=
  if text.isEmpty then .ok [] else readRecordFrom 1 (normalLineEnds text.toList)

end HeapFlow.CommandLine
