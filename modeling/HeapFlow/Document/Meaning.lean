import HeapFlow.Text.Integer

/-!
# What plain scalars mean

A scalar without quotes means its own text, unless that text is a spelling of null or of a truth
value, a number or a time. `meansText` tells which texts mean themselves, which matters where keys
are compared by their meanings. A decimal number counts as one only if it can be rounded to a
double-precision number, and an integer in another base only if it has at most 64 bits.
-/

namespace HeapFlow.Document

open Text

/-! ### Words -/

def nullSpellings : List String := ["", "~", "null", "Null", "NULL"]

def trueSpellings : List String := ["true", "True", "TRUE"]

def falseSpellings : List String := ["false", "False", "FALSE"]

/-- The numbers that are written without digits. -/
def numberWords : List String :=
  [".nan", ".NaN", ".NAN", ".inf", ".Inf", ".INF", "+.inf", "+.Inf", "+.INF", "-.inf", "-.Inf",
    "-.INF"]

/-! ### Numbers -/

/-- A text without its sign, and whether that is negative. -/
def takeSign : List Char → Bool × List Char
  | '-' :: cs => (true, cs)
  | '+' :: cs => (false, cs)
  | cs => (false, cs)

variable (cs : List Char)

/-- Whether a text is an integer of 64 bits. A sign may also stand behind the letter that announces
binary or octal digits. -/
def isInteger : Bool :=
  let inBase (base : Nat) (ds : List Char) : Bool :=
    let (negative, ds) := takeSign ds
    !ds.isEmpty && ((readDigits base 0 ds).bind (withSign negative)).isOk
  (readInteger cs).isOk || (readUnsigned cs).isOk ||
  match cs with
  | '0' :: 'b' :: ds => inBase 2 ds
  | '0' :: 'o' :: ds => inBase 8 ds
  | _ => false

def readExponent : List Char → Option Int
  | [] => some 0
  | c :: cs =>
    let (negative, ds) := takeSign cs
    if !(c == 'e' || c == 'E') || ds.isEmpty || !ds.all Char.isDigit then none
    else some (if negative then -(digitsValue ds : Int) else digitsValue ds)

/-- The least number that is too large for double precision: halfway between the greatest of these
numbers and the next power of two. -/
def doubleBound : Nat := Nat.pow 2 1024 - Nat.pow 2 970

/-- Whether digits, the last of which counts as the given power of ten, are within double precision.
-/
def fitsDouble (digits : List Char) (scale : Int) : Bool :=
  let value := digitsValue digits
  let whole := ((digits.dropWhile (· == '0')).length : Int) + scale
  if value == 0 || whole < 309 then true
  else if 309 < whole then false
  else if 0 ≤ scale then value * Nat.pow 10 scale.toNat < doubleBound
  else value < doubleBound * Nat.pow 10 (-scale).toNat

def isDecimal : Bool :=
  let whole := cs.takeWhile Char.isDigit
  let (fraction, rest) := match cs.dropWhile Char.isDigit with
    | '.' :: rest => (rest.takeWhile Char.isDigit, rest.dropWhile Char.isDigit)
    | rest => ([], rest)
  let digits := whole ++ fraction
  !digits.isEmpty &&
  match readExponent rest with
  | some e => fitsDouble digits (e - fraction.length)
  | none => false

/-- Whether a text is a number. Underscores in it say nothing, unless it begins with the point. -/
def isNumber : Bool :=
  match cs with
  | [] => false
  | c :: _ =>
    if c == '.' then isDecimal cs
    else if c.isDigit || c == '+' || c == '-' then
      let cs := cs.filter (· != '_')
      isInteger cs || isDecimal (takeSign cs).2
    else false

/-! ### Times -/

/-- Takes a number of one or two digits from a text. -/
def takeShort : List Char → Option (Nat × List Char)
  | c :: cs =>
    if !c.isDigit then none
    else match cs with
      | d :: ds => if d.isDigit then some (digitsValue [c, d], ds) else some (digitsValue [c], cs)
      | [] => some (digitsValue [c], [])
  | [] => none

def takeChar (x : Char) : List Char → Option (List Char)
  | c :: cs => if c == x then some cs else none
  | [] => none

def daysIn (year month : Nat) : Nat :=
  if month == 2 then
    if year % 4 == 0 && (year % 100 != 0 || year % 400 == 0) then 29 else 28
  else if [4, 6, 9, 11].contains month then 30
  else 31

/-- Takes a date with a year of four digits from a text. -/
def takeDate : Option (List Char) := do
  let year := cs.takeWhile Char.isDigit
  let (month, rest) ← takeShort (← takeChar '-' (cs.dropWhile Char.isDigit))
  let (day, rest) ← takeShort (← takeChar '-' rest)
  if year.length == 4 && 1 ≤ month && month ≤ 12 &&
      1 ≤ day && day ≤ daysIn (digitsValue year) month then
    some rest
  else none

/-- Takes a time of day, which may have a fraction of a second, from a text. -/
def takeClock : Option (List Char) := do
  let (hour, rest) ← takeShort cs
  let (minute, rest) ← takeShort (← takeChar ':' rest)
  let (second, rest) ← takeShort (← takeChar ':' rest)
  if !(hour < 24 && minute < 60 && second < 60) then none
  else match rest with
    | p :: d :: more =>
      if (p == '.' || p == ',') && d.isDigit then some (more.dropWhile Char.isDigit) else some rest
    | _ => some rest

/-- Whether a text is the distance of a time zone. -/
def isZone : List Char → Bool
  | ['Z'] => true
  | [sign, a, b, ':', c, d] =>
    (sign == '+' || sign == '-') && [a, b, c, d].all Char.isDigit &&
    digitsValue [a, b] ≤ 24 && digitsValue [c, d] ≤ 60
  | _ => false

def isTime : Bool :=
  match takeDate cs with
  | none => false
  | some [] => true
  | some (c :: rest) =>
    if c == 'T' || c == 't' then (takeClock rest).any isZone
    else if c == ' ' then (takeClock (rest.dropWhile (· == ' '))).any List.isEmpty
    else false

/-! ### The meaning of a text -/

/-- **Whether a plain scalar means its own text.** -/
def meansText (s : String) : Bool :=
  !((nullSpellings ++ trueSpellings ++ falseSpellings ++ numberWords).contains s ||
    isNumber s.toList || isTime s.toList)

end HeapFlow.Document
