/-!
# Times in the output

A span of time is written with the largest unit in which it is not below one, except that from a
second on hours, minutes and seconds are written together. A point in time is written as a date and
a time of day in universal time.
-/

namespace HeapFlow.CommandLine

/-- The decimal digits of a number, with zeros in front up to a width. -/
def padded (width n : Nat) : String :=
  let ds := toString n
  String.ofList (List.replicate (width - ds.length) '0') ++ ds

/-- A number divided by a power of ten, without zeros at the end. -/
def fraction (places n : Nat) : String :=
  let unit := Nat.pow 10 places
  let rest := ((padded places (n % unit)).toList.reverse.dropWhile (· = '0')).reverse
  toString (n / unit) ++ (if rest.isEmpty then "" else "." ++ String.ofList rest)

/-- The nanoseconds of a second. -/
def second : Nat := 1000000000

def spanText (n : Nat) : String :=
  if n = 0 then "0s"
  else if n < 1000 then toString n ++ "ns"
  else if n < 1000000 then fraction 3 n ++ "µs"
  else if n < second then fraction 6 n ++ "ms"
  else
    let minutes := n / (60 * second)
    let seconds := fraction 9 (n % (60 * second)) ++ "s"
    if minutes = 0 then seconds
    else if minutes < 60 then toString minutes ++ "m" ++ seconds
    else toString (minutes / 60) ++ "h" ++ toString (minutes % 60) ++ "m" ++ seconds

/-- Year, month and day of a number of days since the start of the year 1970. Years are counted from
March, so that the day that only some of them have is their last. -/
def dateOf (days : Nat) : Nat × Nat × Nat :=
  let z := days + 719468
  let era := z / 146097
  let dayOfEra := z % 146097
  let year := (dayOfEra - dayOfEra / 1460 + dayOfEra / 36524 - dayOfEra / 146096) / 365
  let day := dayOfEra - (365 * year + year / 4 - year / 100)
  let month := (5 * day + 2) / 153
  let calendar := if month < 10 then month + 3 else month - 9
  (era * 400 + year + (if calendar ≤ 2 then 1 else 0), calendar, day - (153 * month + 2) / 5 + 1)

/-- How a number of nanoseconds since the start of the year 1970 is written. -/
def instantText (n : Nat) : String :=
  let seconds := n / second
  let (year, month, day) := dateOf (seconds / 86400)
  let inDay := seconds % 86400
  padded 4 year ++ "-" ++ padded 2 month ++ "-" ++ padded 2 day ++ "T" ++
  padded 2 (inDay / 3600) ++ ":" ++ padded 2 (inDay / 60 % 60) ++ ":" ++
  padded 2 (inDay % 60) ++ "Z"

end HeapFlow.CommandLine
