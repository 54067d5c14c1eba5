import HeapFlow.Text.Quoted

/-!
# JSON documents

The values that the output is made of, and their text: each item and each field on a line of its
own, indented by two blanks for each level.
-/

namespace HeapFlow.CommandLine

inductive Json where
  | num (n : Nat)
  | str (s : String)
  | list (items : List Json)
  | record (fields : List (String × Json))

namespace Json

/-- The characters that are written by number although they can be printed. -/
def numbered : List Char := ['<', '>', '&', '\u2028', '\u2029']

/-- How a character of a text is written. Characters that mean something in markup or end a line are
written by number. -/
def charText (c : Char) : String :=
  match c with
  | '"' => "\\\""
  | '\\' => "\\\\"
  | '\n' => "\\n"
  | '\r' => "\\r"
  | '\t' => "\\t"
  | _ =>
    if c.toNat = 8 then "\\b"
    else if c.toNat = 12 then "\\f"
    else if c.toNat < 0x20 || numbered.contains c then
      "\\u" ++ String.ofList (Text.hexDigits 4 c.toNat)
    else c.toString

def strText (s : String) : String :=
  "\"" ++ String.join (s.toList.map charText) ++ "\""

/-- Lines between brackets, at an indentation. -/
def block (opening closing pad : String) (lines : List String) : String :=
  if lines.isEmpty then opening ++ closing
  else
    opening ++ "\n" ++ ",\n".intercalate (lines.map fun l => pad ++ "  " ++ l) ++ "\n" ++
    pad ++ closing

mutual

def text (pad : String) : Json → String
  | num n => toString n
  | str s => strText s
  | list items => block "[" "]" pad (itemTexts (pad ++ "  ") items)
  | record fields => block "\x7b" "\x7d" pad (fieldTexts (pad ++ "  ") fields)

def itemTexts (pad : String) : List Json → List String
  | [] => []
  | j :: js => text pad j :: itemTexts pad js

def fieldTexts (pad : String) : List (String × Json) → List String
  | [] => []
  | (name, j) :: fields => (strText name ++ ": " ++ text pad j) :: fieldTexts pad fields

end

/-- A list as a field that is left out when the list is empty. -/
def listField (name : String) (items : List Json) : List (String × Json) :=
  if items.isEmpty then [] else [(name, list items)]

end Json

end HeapFlow.CommandLine
