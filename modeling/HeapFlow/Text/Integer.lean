import HeapFlow.Text.Decimal

/-!
# Signed integers in several bases

An integer is an optional sign and digits. Digits that begin with `0b`, `0o` or `0x` are binary,
octal or hexadecimal, other digits that begin with `0` are octal, and all others are decimal. Single
underscores may divide the digits from each other and from what announces the base.

The digits are read from the left, and the first thing that is wrong counts: a number that has grown
too large is out of range, whatever follows.
-/

namespace HeapFlow.Text

/-- The value of a letter or digit as a digit. -/
def digitValue? (c : Char) : Option Nat :=
  if c.isDigit then some (c.toNat - 48)
  else if c.isUpper then some (c.toNat - 55)
  else if c.isLower then some (c.toNat - 87)
  else none

/-- The number of 64-bit words, two to the power 64. -/
def wordBound : Nat := 18446744073709551616

/-- Reads digits on top of a value. Underscores are passed over. -/
def readDigits (base : Nat) : (value : Nat) → List Char → Except DecimalError Nat
  | n, [] => .ok n
  | n, '_' :: ds => readDigits base n ds
  | n, d :: ds => match digitValue? d with
    | none => .error .invalid
    | some k =>
      if base ≤ k then .error .invalid
      else if wordBound ≤ n * base + k then .error .outOfRange
      else readDigits base (n * base + k) ds

/-- Whether each underscore stands between digits, where `after` tells that a digit comes before. -/
def underscoresDivide : (after : Bool) → List Char → Bool
  | _, [] => true
  | after, '_' :: ds => after && !ds.isEmpty && underscoresDivide false ds
  | _, _ :: ds => underscoresDivide true ds

/-- The base that digits announce and the digits that follow the announcement. -/
def announcedBase : List Char → Nat × List Char
  | '0' :: c :: d :: ds =>
    if c = 'b' || c = 'B' then (2, d :: ds)
    else if c = 'o' || c = 'O' then (8, d :: ds)
    else if c = 'x' || c = 'X' then (16, d :: ds)
    else (8, c :: d :: ds)
  | '0' :: ds => (8, ds)
  | ds => (10, ds)

/-- Reads digits with the base that they announce. -/
def readUnsigned (ds : List Char) : Except DecimalError Nat :=
  if ds.isEmpty then .error .invalid
  else do
    let (base, rest) := announcedBase ds
    let n ← readDigits base 0 rest
    if underscoresDivide (base ≠ 10) rest then pure n else .error .invalid

/-- Reads an optionally signed integer into the range of signed 64-bit integers. -/
def readInteger (s : List Char) : Except DecimalError Int := do
  let (negative, ds) := match s with
    | '-' :: ds => (true, ds)
    | '+' :: ds => (false, ds)
    | ds => (false, ds)
  withSign negative (← readUnsigned ds)

end HeapFlow.Text
