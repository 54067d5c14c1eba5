import HeapFlow.Document.Token

/-!
# Nodes of a document

A document is a tree of scalars, sequences and mappings. `Document.read` builds the tree of the
first document of a text; what follows the first document is looked at only as far as tokens are
read ahead. The functions below use up tokens one after the other. They are bounded by the number of
tokens, since each call that succeeds uses at least one or ends a collection.
-/

namespace HeapFlow.Document

inductive Node where
  | scalar (text : String) (plain : Bool)
  | seq (items : List Node)
  /-- A mapping, in the order written. -/
  | map (pairs : List (Node × Node))
deriving Repr, Inhabited

def Node.missing : Node := .scalar "" true

/-- Whether a token belongs to the surroundings of a block mapping, so that nothing was written. -/
def endsPair : Token → Bool
  | .key | .value | .blockEnd => true
  | _ => false

def endsBlockItem : Token → Bool
  | .dash | .blockEnd => true
  | _ => false

def endsItem : Token → Bool
  | .comma | .flowSeqEnd => true
  | _ => false

def endsFlowPair : Token → Bool
  | .comma | .flowMapEnd => true
  | _ => false

def endsDocument : Token → Bool
  | .docStart | .docEnd | .streamEnd => true
  | _ => false

/-! ### Using up tokens -/

/-- A part of a document: it uses up tokens, and fails where the text is malformed. -/
abbrev Parse := StateT Lexer Option

def front : Parse Token := fun l => do
  let l ← l.readAhead (l.size + Lexer.lookahead + 1)
  let t ← l.tokens[l.used]?
  pure (t, l)

def useToken : Parse Unit := fun l =>
  some ((), { l with used := l.used + 1 })

/-- Uses the first token, and tells which one comes then. -/
def useThenFront : Parse Token := do
  useToken
  front

mutual

/-- Reads a node. In a block mapping a sequence may begin at the column of its key, without a token
that opens it. -/
def parseNode (block indentless : Bool) : (fuel : Nat) → Parse Node
  | 0 => failure
  | n + 1 => do
    match ← front with
    | .scalar t plain => useToken; pure (.scalar t plain)
    | .flowSeq => useToken; .seq <$> parseFlowSeq true n
    | .flowMap => useToken; .map <$> parseFlowMap true n
    | .blockSeq => if block then useToken; .seq <$> parseBlockSeq n else failure
    | .blockMap => if block then useToken; .map <$> parseBlockMap n else failure
    | .dash => if indentless then .seq <$> parseDashes n else failure
    | _ => failure

def parseBlockSeq : (fuel : Nat) → Parse (List Node)
  | 0 => failure
  | n + 1 => do
    match ← front with
    | .blockEnd => useToken; pure []
    | .dash =>
      let x ← if endsBlockItem (← useThenFront) then pure Node.missing else parseNode true false n
      pure (x :: (← parseBlockSeq n))
    | _ => failure

/-- Reads the elements of a sequence at the column of its key; whatever is no element ends it. -/
def parseDashes : (fuel : Nat) → Parse (List Node)
  | 0 => failure
  | n + 1 => do
    match ← front with
    | .dash =>
      let t ← useThenFront
      let x ← if t = .dash || endsPair t then pure Node.missing else parseNode true false n
      pure (x :: (← parseDashes n))
    | _ => pure []

def parseBlockMap : (fuel : Nat) → Parse (List (Node × Node))
  | 0 => failure
  | n + 1 => do
    match ← front with
    | .blockEnd => useToken; pure []
    | .key =>
      let k ← if endsPair (← useThenFront) then pure Node.missing else parseNode true true n
      let v ← parseBlockValue n
      pure ((k, v) :: (← parseBlockMap n))
    | _ => failure

def parseBlockValue : (fuel : Nat) → Parse Node
  | 0 => failure
  | n + 1 => do
    match ← front with
    | .value => if endsPair (← useThenFront) then pure Node.missing else parseNode true true n
    | _ => pure Node.missing

/-- Reads the elements of a flow sequence up to its end. A pair stands for a mapping of one pair; if
it has no key, the token after the indicator is passed over. -/
def parseFlowSeq (first : Bool) : (fuel : Nat) → Parse (List Node)
  | 0 => failure
  | n + 1 => do
    let t ← front
    let t ← if first || t = .flowSeqEnd then pure t
      else if t = .comma then useThenFront else failure
    match t with
    | .flowSeqEnd => useToken; pure []
    | .key =>
      let t ← useThenFront
      let k ← if t = .value || endsItem t then useToken; pure Node.missing
        else parseNode false false n
      let v ← parseFlowValue endsItem n
      pure (.map [(k, v)] :: (← parseFlowSeq false n))
    | _ =>
      let x ← parseNode false false n
      pure (x :: (← parseFlowSeq false n))

/-- Reads the pairs of a flow mapping up to its end; a key may stand alone. -/
def parseFlowMap (first : Bool) : (fuel : Nat) → Parse (List (Node × Node))
  | 0 => failure
  | n + 1 => do
    let t ← front
    let t ← if first || t = .flowMapEnd then pure t
      else if t = .comma then useThenFront else failure
    match t with
    | .flowMapEnd => useToken; pure []
    | .key =>
      let t ← useThenFront
      let k ← if t = .value || endsFlowPair t then pure Node.missing else parseNode false false n
      let v ← parseFlowValue endsFlowPair n
      pure ((k, v) :: (← parseFlowMap false n))
    | _ =>
      let k ← parseNode false false n
      pure ((k, Node.missing) :: (← parseFlowMap false n))

/-- Reads the value of a pair in a flow collection, where `ends` tells which tokens end the pair. -/
def parseFlowValue (ends : Token → Bool) : (fuel : Nat) → Parse Node
  | 0 => failure
  | n + 1 => do
    match ← front with
    | .value => if ends (← useThenFront) then pure Node.missing else parseNode false false n
    | _ => pure Node.missing

end

/-! ### The first document -/

/-- Makes sure that all characters that have been looked at are allowed. -/
def certain : Parse Unit := do
  if (← get).cur.doubtful then failure

/-- Reads the root of a document. What follows it must be readable as far as tokens are read ahead.
-/
def parseRoot (fuel : Nat) : Parse Node := do
  let root ← parseNode true false fuel
  certain
  let _ ← front
  pure root

/-- Reads the first document, if there is one. -/
def parseDocument (fuel : Nat) : Parse (Option Node) := do
  match ← front with
  | .streamEnd => pure none
  | .docStart => do
    if endsDocument (← useThenFront) then
      certain
      pure (some Node.missing)
    else some <$> parseRoot fuel
  | _ => some <$> parseRoot fuel

/-- What the first document of a text is. -/
inductive Reading where
  | malformed
  | absent
  | root (node : Node)

/-- The reading of a text, in which a mark of the byte order in front is passed over. -/
def Lexer.ofText (text : String) : Lexer :=
  match text.toList with
  | [] => Lexer.ofChars [] blockSize
  | c :: cs =>
    if c == byteOrderMark then Lexer.ofChars cs (blockSize - c.utf8Size)
    else Lexer.ofChars (c :: cs) blockSize

/-- Reads the first document of a text. A character makes at most four tokens, and a token is looked
at by at most four of the functions above. -/
def read (text : String) : Reading :=
  let l := Lexer.ofText text
  match parseDocument (16 * (l.size + 1)) l with
  | none => .malformed
  | some (found, l) =>
    if l.cur.spoiled then .malformed
    else match found with
      | some node => .root node
      | none => .absent

end HeapFlow.Document
