/-!
# Signed decimals of 64 bits

A decimal is an optional sign and at least one digit. `readInt64` reads it into the range of signed
64-bit integers and tells a text that is no decimal from one whose value lies outside the range.
-/

namespace HeapFlow.Text

inductive DecimalError where
  | invalid
  | outOfRange
deriving DecidableEq, Repr

def DecimalError.message : DecimalError → String
  | .invalid => "invalid syntax"
  | .outOfRange => "value out of range"

/-- The value of a list of decimal digits, most significant first. -/
def digitsValue (ds : List Char) : Nat :=
  ds.foldl (fun n d => n * 10 + (d.toNat - 48)) 0

/-- The number of non-negative 64-bit integers, two to the power 63. -/
def signedBound : Nat := 9223372036854775808

/-- A number under a sign, if it lies in the range of 64-bit integers. -/
def withSign (negative : Bool) (n : Nat) : Except DecimalError Int :=
  if negative then
    if n ≤ signedBound then .ok (-(n : Int)) else .error .outOfRange
  else if n < signedBound then .ok n else .error .outOfRange

/-- The value of digits under a sign, if it lies in the range of 64-bit integers. -/
def signedDigits (negative : Bool) (ds : List Char) : Except DecimalError Int :=
  if ds.isEmpty || !ds.all Char.isDigit then .error .invalid
  else
    withSign negative (digitsValue ds)

def readInt64 (s : List Char) : Except DecimalError Int :=
  match s with
  | '-' :: ds => signedDigits true ds
  | '+' :: ds => signedDigits false ds
  | ds => signedDigits false ds

end HeapFlow.Text
