/-!
# Character classes and blanks

The grammar of declarations and statements is built from a few classes of ASCII characters, and it
is applied to texts that have been trimmed of white space first. Trimming is by the Unicode
property `White_Space`, while a blank *inside* a declaration is one of five ASCII characters; the
two notions differ, and a text such as `o = a` with no-break spaces is therefore not a copy.
-/

namespace HeapFlow.Text

/-- A character of a variable name: an ASCII letter or digit, or the underscore. -/
def isWordChar (c : Char) : Bool :=
  c.isAlphanum || c == '_'

/-- A character of a class or field name: a word character or the dollar sign. -/
def isNameChar (c : Char) : Bool :=
  isWordChar c || c == '$'

/-- A character of a written type: a name character or a square bracket. -/
def isTypeChar (c : Char) : Bool :=
  isNameChar c || c == '[' || c == ']'

/-- A character of a method name: a name character or an angle bracket. -/
def isMemberChar (c : Char) : Bool :=
  isNameChar c || c == '<' || c == '>'

/-- A blank between the parts of a declaration or statement. -/
def isBlank (c : Char) : Bool :=
  c == ' ' || c == '\t' || c == '\n' || c == '\r' || c == '\x0c'

/-- The code points with the property `White_Space`, as closed ranges in increasing order. -/
def whiteSpaceRanges : List (Nat × Nat) := [
  (0x9, 0xd), (0x20, 0x20), (0x85, 0x85), (0xa0, 0xa0), (0x1680, 0x1680), (0x2000, 0x200a),
  (0x2028, 0x2029), (0x202f, 0x202f), (0x205f, 0x205f), (0x3000, 0x3000)]

def isWhiteSpace (c : Char) : Bool :=
  whiteSpaceRanges.any fun r => r.1 ≤ c.toNat && c.toNat ≤ r.2

def trim (s : List Char) : List Char :=
  ((s.dropWhile isWhiteSpace).reverse.dropWhile isWhiteSpace).reverse

def trimmed (s : String) : String :=
  String.ofList (trim s.toList)

/-! ### Splitting -/

/-- The pieces of a text between the occurrences of a separator; there is always at least one. -/
def splitOnChar (sep : Char) : List Char → List (List Char)
  | [] => [[]]
  | c :: rest =>
    if c = sep then [] :: splitOnChar sep rest
    else match splitOnChar sep rest with
      | [] => [[c]]
      | piece :: pieces => (c :: piece) :: pieces

/-- The text before and after the first occurrence of a character. -/
def cutAt? (sep : Char) (s : List Char) : Option (List Char × List Char) :=
  match s.dropWhile (· ≠ sep) with
  | [] => none
  | _ :: after => some (s.takeWhile (· ≠ sep), after)

def occursIn (w : List Char) : List Char → Bool
  | [] => w.isEmpty
  | c :: s => w.isPrefixOf (c :: s) || occursIn w s

/-- The lines of a text: it is split at every line feed, so a final line feed leaves an empty last
line. -/
def lines (s : String) : List String :=
  (splitOnChar '\n' s.toList).map String.ofList

/-- The order of texts by their UTF-8 bytes, which is the order by code points. -/
def textLE (a b : String) : Bool :=
  !(decide (b < a))

/-- Texts in increasing order; equal texts stay beside each other. -/
def sortTexts (xs : List String) : List String :=
  xs.mergeSort textLE

/-- A list without the elements that equal their left neighbour. -/
def compact {α : Type} [DecidableEq α] : List α → List α
  | [] => []
  | [a] => [a]
  | a :: b :: rest => if a = b then compact (b :: rest) else a :: compact (b :: rest)

end HeapFlow.Text
