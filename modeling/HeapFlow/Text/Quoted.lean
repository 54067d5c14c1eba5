import HeapFlow.Text.Bytes
import HeapFlow.Text.Printable

/-!
# Quoted text

Messages and labels show a text between double quotes. A printable character stands for itself, the
quote and the backslash are preceded by a backslash, seven control characters have a letter of their
own, the other ASCII characters and stray bytes are written by two hexadecimal digits after `\x`,
and all other characters by four after `\u` or eight after `\U`.

`unquote` reads the same form back, as it is written in the string constants of a program; it also
knows octal escapes and gives the *bytes* denoted.
-/

namespace HeapFlow.Text

/-- The lower-case hexadecimal digit of a number below sixteen. -/
def hexDigit (n : Nat) : Char :=
  if n < 10 then Char.ofNat (48 + n) else Char.ofNat (87 + n)

/-- The last `width` hexadecimal digits of a number. -/
def hexDigits : (width : Nat) → Nat → List Char
  | 0, _ => []
  | w + 1, n => hexDigits w (n / 16) ++ [hexDigit (n % 16)]

/-- The letter that writes a control character after a backslash. -/
def controlLetter? (c : Char) : Option Char :=
  match c.toNat with
  | 7 => some 'a'
  | 8 => some 'b'
  | 12 => some 'f'
  | 10 => some 'n'
  | 13 => some 'r'
  | 9 => some 't'
  | 11 => some 'v'
  | _ => none

/-- How one character is written between the quotes. -/
def quoteChar (c : Char) : List Char :=
  if c = '"' || c = '\\' then ['\\', c]
  else if isPrintable c then [c]
  else match controlLetter? c with
    | some l => ['\\', l]
    | none =>
      if c.toNat < 0x80 then '\\' :: 'x' :: hexDigits 2 c.toNat
      else if c.toNat < 0x10000 then '\\' :: 'u' :: hexDigits 4 c.toNat
      else '\\' :: 'U' :: hexDigits 8 c.toNat

/-- How one piece of a byte sequence is written between the quotes. -/
def quotePiece : Piece → List Char
  | .char c => quoteChar c
  | .stray b => '\\' :: 'x' :: hexDigits 2 b.toNat

/-- A byte sequence as quoted text. -/
def quoteBytes (bs : List UInt8) : String :=
  String.ofList ('"' :: (pieces bs).flatMap quotePiece ++ ['"'])

def quote (s : String) : String :=
  String.ofList ('"' :: s.toList.flatMap quoteChar ++ ['"'])

/-! ### Reading quoted text -/

/-- The value of a hexadecimal digit. -/
def hexValue? (c : Char) : Option Nat :=
  if '0' ≤ c && c ≤ '9' then some (c.toNat - 48)
  else if 'a' ≤ c && c ≤ 'f' then some (c.toNat - 87)
  else if 'A' ≤ c && c ≤ 'F' then some (c.toNat - 55)
  else none

/-- Exactly `n` hexadecimal digits at the start of a text, most significant first. -/
def takeHex : (n : Nat) → (value : Nat) → List Char → Option (Nat × List Char)
  | 0, v, s => some (v, s)
  | n + 1, v, c :: s => do takeHex n (v * 16 + (← hexValue? c)) s
  | _ + 1, _, [] => none

/-- The value of an octal digit. -/
def octalValue? (c : Char) : Option Nat :=
  if '0' ≤ c && c ≤ '7' then some (c.toNat - 48) else none

/-- The bytes of the scalar value `n`; surrogates and numbers above the last code point are none. -/
def scalarBytes? (n : Nat) : Option (List UInt8) :=
  if n.isValidChar then some (encodeChar (Char.ofNat n)) else none

/-- Reads the escape after a backslash: the bytes it denotes and the text after it. -/
def takeEscape : List Char → Option (List UInt8 × List Char)
  | 'a' :: s => some ([7], s)
  | 'b' :: s => some ([8], s)
  | 'f' :: s => some ([12], s)
  | 'n' :: s => some ([10], s)
  | 'r' :: s => some ([13], s)
  | 't' :: s => some ([9], s)
  | 'v' :: s => some ([11], s)
  | '\\' :: s => some ([92], s)
  | '"' :: s => some ([34], s)
  | 'x' :: s => do
    let (n, s) ← takeHex 2 0 s
    pure ([n.toUInt8], s)
  | 'u' :: s => do
    let (n, s) ← takeHex 4 0 s
    pure (← scalarBytes? n, s)
  | 'U' :: s => do
    let (n, s) ← takeHex 8 0 s
    pure (← scalarBytes? n, s)
  | a :: b :: c :: s => do
    let n := (← octalValue? a) * 64 + (← octalValue? b) * 8 + (← octalValue? c)
    if n < 256 then pure ([n.toUInt8], s) else none
  | _ => none

/-- Reads the characters after the opening quote up to the closing one, which must end the text. The
fuel is the length of the text: every character read is consumed. -/
def unquoteBody : (fuel : Nat) → List Char → Option (List UInt8)
  | 0, _ => none
  | _, [] => none
  | _, '\n' :: _ => none
  | _, ['"'] => some []
  | _, '"' :: _ => none
  | n + 1, '\\' :: s => do
    let (bs, s) ← takeEscape s
    pure (bs ++ (← unquoteBody n s))
  | n + 1, c :: s => do pure (encodeChar c ++ (← unquoteBody n s))

/-- The bytes that a quoted text denotes. -/
def unquote (s : List Char) : Option (List UInt8) :=
  match s with
  | '"' :: body => unquoteBody (body.length + 1) body
  | _ => none

end HeapFlow.Text
