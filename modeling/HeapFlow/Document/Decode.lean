import HeapFlow.Document.Meaning
import HeapFlow.Document.Node

/-!
# Decoding nodes

A decoder turns a node into a value of a given kind. A node that stands for *null* has no value: it
leaves a default in place, and as an element of a sequence it is dropped. A node of the wrong kind
is an error, and so is a mapping in which a key occurs twice.

The plain key `<<` of a mapping stands for the pairs of other mappings: its value is a mapping or a
sequence of them. The pairs that are written out come first, and a key that was there before is not
taken from another mapping. Only the keys of the outermost mapping are compared by what they mean:
one that is written like a number does not keep the same text out.
-/

namespace HeapFlow.Document

structure Mismatch where
deriving DecidableEq, Repr

def Node.isNull : Node → Bool
  | .scalar t plain => plain && nullSpellings.contains t
  | _ => false

/-- A decoder: the value of a node, or none for null. -/
abbrev Decoder (α : Type) := Node → Except Mismatch (Option α)

/-- The text of a scalar, whatever it looks like. -/
def decodeText : Decoder String
  | .scalar t plain => .ok (if (Node.scalar t plain).isNull then none else some t)
  | _ => .error {}

/-- A truth value. The spellings of `true` and `false` count only when written plainly, a few older
words in any form. -/
def decodeFlag : Decoder Bool
  | .scalar t plain =>
    if (Node.scalar t plain).isNull then .ok none
    else if plain && trueSpellings.contains t then .ok (some true)
    else if plain && falseSpellings.contains t then .ok (some false)
    else if ["y", "Y", "yes", "Yes", "YES", "on", "On", "ON"].contains t then .ok (some true)
    else if ["n", "N", "no", "No", "NO", "off", "Off", "OFF"].contains t then .ok (some false)
    else .error {}
  | _ => .error {}

/-- The elements of a sequence; those that are null are dropped. -/
def decodeList {α : Type} (decode : Decoder α) : Decoder (List α)
  | .seq items => do
    let values ← items.mapM decode
    pure (some (values.filterMap id))
  | n => if n.isNull then .ok none else .error {}

/-! ### Mappings -/

/-- The key of a pair: none for null. -/
def decodeKey (pair : Node × Node) : Except Mismatch (Option (String × Node)) := do
  pure ((← decodeText pair.1).map (·, pair.2))

def keyText : Node → String
  | .scalar t _ => t
  | _ => ""

/-- Whether no key of a mapping occurs twice. -/
def keysDistinct (pairs : List (Node × Node)) : Bool :=
  (pairs.map fun p => keyText p.1).eraseDups.length == pairs.length

def mergeKey : String := "<<"

def Node.isMerge : Node → Bool
  | .scalar t plain => plain && t == mergeKey
  | _ => false

def Node.isText : Node → Bool
  | .scalar t plain => !plain || meansText t
  | _ => false

def Node.isMap : Node → Bool
  | .map _ => true
  | _ => false

/-- The pairs written out in a mapping whose keys are not taken. -/
def ownPairs (taken : List String) (pairs : List (Node × Node)) :
    Except Mismatch (List (String × Node)) := do
  let named ← (pairs.filter fun p => !p.1.isMerge).mapM decodeKey
  pure ((named.filterMap id).filter fun p => !taken.contains p.1)

/-- Appends pairs whose keys are not among those before. -/
def appendNew (taken : List String) (own : List (String × Node))
    (more : List String → Except Mismatch (List (String × Node))) :
    Except Mismatch (List (String × Node)) := do
  pure (own ++ (← more (taken ++ own.map (·.1))))

mutual

/-- The pairs of a mapping, or of the mappings of a sequence, whose keys are not taken. -/
def mergePairs : Node → (taken : List String) → Except Mismatch (List (String × Node))
  | .map pairs, taken => do
    if !keysDistinct pairs then throw {}
    appendNew taken (← ownPairs taken pairs) (mergeValue pairs)
  | .seq items, taken => mergeItems items taken
  | .scalar _ _, _ => .error {}

/-- The pairs that the key `<<` of a mapping stands for. Its own text is taken from then on. -/
def mergeValue : List (Node × Node) → (taken : List String) →
    Except Mismatch (List (String × Node))
  | [], _ => .ok []
  | (k, v) :: rest, taken =>
    if k.isMerge then mergePairs v (mergeKey :: taken) else mergeValue rest taken

def mergeItems : List Node → (taken : List String) → Except Mismatch (List (String × Node))
  | [], _ => .ok []
  | x :: rest, taken => do
    if !x.isMap then throw {}
    appendNew taken (← mergePairs x taken) (mergeItems rest)

end

/-- The pairs of a mapping by the text of their keys, none of which may be written twice. -/
def decodePairs (node : Node) : Except Mismatch (Option (List (String × Node))) :=
  match node with
  | .map pairs => do
    if !keysDistinct pairs then throw {}
    let own ← ownPairs [] pairs
    let taken := (pairs.filter fun p => p.1.isText).map fun p => keyText p.1
    pure (some (own ++ (← mergeValue pairs taken)))
  | _ => if node.isNull then .ok none else .error {}

/-! ### Records -/

/-- The value of a field of a record, or a default if the field is missing or null. -/
def fieldOr {α : Type} (fields : List (String × Node)) (name : String) (decode : Decoder α)
    (default : α) : Except Mismatch α :=
  match fields.lookup name with
  | some n => do pure ((← decode n).getD default)
  | none => .ok default

def onlyFields (known : List String) (fields : List (String × Node)) : Except Mismatch Unit :=
  if fields.all fun f => known.contains f.1 then .ok () else .error {}

/-- Decodes the first document of a text, or a default if there is none or it is null. -/
def decodeText? {α : Type} (decode : Decoder α) (default : α) (text : String) :
    Except Mismatch α :=
  match read text with
  | .malformed => .error {}
  | .absent => .ok default
  | .root n => do pure ((← decode n).getD default)

end HeapFlow.Document
