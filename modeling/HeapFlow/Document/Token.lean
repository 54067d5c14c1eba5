import HeapFlow.Document.Scalar

/-!
# Tokens of a document

The structure of a document is carried by indentation, by a few indicator characters and, for keys,
by nothing at all: that a scalar was a key is known only when the colon after it is met. Reading
therefore keeps, for every open flow collection, a *candidate*: the place of the last token that
could begin a key. When a colon follows in time, the key token – and, in a block, the token that
opens the mapping – is put in front of it.

Tokens are read ahead of their use (`lookahead`), and as long as the first one may still turn out to
begin a key, reading goes on. What cannot be read that far makes the text malformed, even behind the
end of a document (`Lexer.readAhead`).

The subset read here has block and flow collections, plain and quoted scalars, comments and document
markers. Anchors, aliases, tags, directives and literal blocks are refused.
-/

namespace HeapFlow.Document

inductive Token where
  | docStart
  | docEnd
  | streamEnd
  | blockSeq
  | blockMap
  | blockEnd
  | flowSeq
  | flowSeqEnd
  | flowMap
  | flowMapEnd
  | comma
  | dash
  | key
  | value
  | scalar (text : String) (plain : Bool)
deriving DecidableEq, Repr, Inhabited

/-- A token that may turn out to begin a key. -/
structure Candidate where
  /-- Whether it must be a key, because it begins a line of a block mapping. -/
  required : Bool
  /-- The number of tokens before it. -/
  place : Nat
  index : Nat
  line : Nat
  col : Nat
  /-- Whether reading goes on until it is known to be a key or not. -/
  awaited : Bool := true

/-- The greatest distance between the beginning of an implicit key and its colon. -/
def keyReach : Nat := 1024

/-- Whether a colon at the cursor comes too late for the candidate. -/
def Candidate.isLate (k : Candidate) (c : Cursor) : Bool :=
  k.line < c.line || k.index + keyReach < c.index

/-- What is known of an open flow collection, or of the block outside all of them. -/
structure Level where
  candidate : Option Candidate := none
  /-- The place of the last candidate there has been, or else of the token that opens the
  collection.
  -/
  latest : Nat := 0

/-- Stops waiting for the candidate at a place. -/
def Level.release (v : Level) (place : Nat) : Level :=
  { v with candidate := v.candidate.map fun k =>
      if k.place == place then { k with awaited := false } else k }

/-- The number of collections that may be open inside each other. -/
def maxDepth : Nat := 10000

structure Lexer where
  cur : Cursor
  /-- A bound on the number of characters. -/
  size : Nat
  /-- The column of the innermost block collection. -/
  indent : Int := -1
  /-- The columns of the block collections around it. -/
  outer : List Int := []
  keyAllowed : Bool := true
  /-- The innermost flow collection, or the block outside all of them. -/
  level : Level := {}
  /-- The flow collections around it and the block outside. -/
  suspended : List Level := []
  tokens : Array Token := #[]
  used : Nat := 0

namespace Lexer

variable (l : Lexer)

def inFlow : Bool :=
  !l.suspended.isEmpty

def emit (t : Token) : Lexer :=
  { l with tokens := l.tokens.push t }

/-- Puts a token in front of the one at a place. If that one is used already, the token comes last.
-/
def insertAt (place : Nat) (t : Token) : Lexer :=
  if place < l.used then l.emit t
  else { l with tokens := l.tokens.insertIdxIfInBounds place t }

/-- Drops the candidate; one that had to be a key is missing its colon. -/
def dropCandidate : Option Lexer :=
  match l.level.candidate with
  | some k =>
    if k.required then none else some { l with level := { l.level with candidate := none } }
  | none => some l

/-- Makes the next token the candidate, where a key is allowed. -/
def markCandidate : Option Lexer :=
  if l.keyAllowed then
    l.dropCandidate.map fun l =>
      let place := l.tokens.size
      let required := !l.inFlow && l.indent == (l.cur.col : Int)
      { l with level := ⟨some ⟨required, place, l.cur.index, l.cur.line, l.cur.col, true⟩, place⟩ }
  else some l

/-- Opens a block collection at a column that is further in, in front of the token at `place`. -/
def openBlock (col : Nat) (place : Nat) (t : Token) : Option Lexer :=
  if !l.inFlow && l.indent < (col : Int) then
    if l.outer.length < maxDepth then
      some { l.insertAt place t with indent := col, outer := l.indent :: l.outer }
    else none
  else some l

/-- Closes the block collections that are further in than a column. -/
def closeBlocks (col : Int) : (outer : List Int) → Lexer → Lexer
  | [], l => l
  | o :: os, l =>
    if col < l.indent then
      closeBlocks col os { l.emit .blockEnd with indent := o, outer := os }
    else l

/-- Closes the block collections that are further in than a column; in a flow collection indentation
is free. -/
def closeTo (col : Int) : Lexer :=
  if l.inFlow then l else closeBlocks col l.outer l

/-! ### Comments and blanks -/

def commentReach : Nat := 512

/-- The characters behind the first one, if that takes one byte: a longer one ends all looking. -/
def behindByte : List Char → List Char
  | x :: xs => if x.utf8Size == 1 then xs else []
  | [] => []

/-- Looks for a comment behind characters that `passes` accepts, and gives the distance to it.
`ahead` are the characters at a distance from the cursor, of which at most `reach` are looked at. A
text is not malformed because of characters that are only looked at, unless they are read in the
end. -/
def seekComment (passes : Char → Bool) :
    (reach distance : Nat) → (ahead : List Char) → Cursor → Option Nat × Cursor
  | 0, _, _, c => (none, c)
  | reach + 1, distance, ahead, c =>
    match c.tryAsk (distance + 1) with
    | (c, false) => (none, { c with doubtful := true })
    | (c, true) =>
      match ahead with
      | [] => (none, c)
      | x :: _ =>
        if passes x then seekComment passes reach (distance + 1) (behindByte ahead) c
        else (if x == '#' then some distance else none, c)

/-- Reads a comment and those that follow it with only blanks and line breaks between them, where
tabs are blanks. `size` bounds the number of characters. -/
def skipComments (size : Nat) : (fuel : Nat) → Cursor → Cursor
  | 0, c => c
  | n + 1, c =>
    let c := c.toLineEnd size
    let passes (x : Char) := isGapChar x || isBreak x
    match seekComment passes (commentReach - 1) 1 (behindByte c.rest) c with
    | (some distance, c) => skipComments size n (c.skip distance)
    | (none, c) => c

/-- Passes over a character where a line begins and a mark of the byte order is allowed. -/
def skipMark (c : Cursor) : Cursor :=
  if c.col == 0 && c.marked then c.pass.ask 1 else c

/-- Skips blanks, comments and line breaks. Where a key is allowed a tab is not a blank. -/
def skipSpace : (fuel : Nat) → Lexer → Lexer
  | 0, l => l
  | n + 1, l =>
    let c := skipMark (l.cur.ask 1)
    match c.rest with
    | [] => { l with cur := c }
    | x :: _ =>
      if isBreak x then
        let c := (c.ask breakReach).takeBreak.2
        skipSpace n { l with cur := c, keyAllowed := l.keyAllowed || !l.inFlow }
      else if x == '#' then skipSpace n { l with cur := skipComments l.size l.size c }
      else if x == ' ' || (x == '\t' && (l.inFlow || !l.keyAllowed)) then
        skipSpace n { l with cur := c.next }
      else { l with cur := c }

/-- Skips a comment in the line of the token before it. The comments of later lines are not part of
it. -/
def skipLineComment : Lexer :=
  match seekComment isGapChar commentReach 0 l.cur.rest l.cur with
  | (some distance, c) => { l with cur := (c.skip distance).toLineEnd l.size }
  | (none, c) => { l with cur := c }

/-! ### The single tokens -/

/-- Reads an indicator of `n` characters as the token `t`. -/
def indicator (n : Nat) (t : Token) : Lexer :=
  { l with cur := l.cur.skip n }.emit t

def readMarker (t : Token) : Option Lexer := do
  let l ← (l.closeTo (-1)).dropCandidate
  pure ({ l with keyAllowed := false }.indicator 3 t)

def openFlow (t : Token) : Option Lexer := do
  let l ← l.markCandidate
  if maxDepth ≤ l.suspended.length then none
  let l := { l with suspended := l.level :: l.suspended, level := { latest := l.tokens.size } }
  pure ({ l with keyAllowed := true }.indicator 1 t)

/-- Closes a flow collection. If no key could begin inside it, reading does not wait until it is
known to be a key itself. -/
def closeFlow (t : Token) : Option Lexer := do
  let l ← l.dropCandidate
  let l := match l.suspended with
    | v :: vs => { l with level := v.release l.level.latest, suspended := vs }
    | [] => l
  pure ({ l with keyAllowed := false }.indicator 1 t)

def readComma : Option Lexer := do
  let l ← l.dropCandidate
  pure ({ l with keyAllowed := true }.indicator 1 .comma)

def readDash : Option Lexer := do
  if !l.inFlow && !l.keyAllowed then none
  let l ← l.openBlock l.cur.col l.tokens.size .blockSeq
  let l ← l.dropCandidate
  pure ({ l with keyAllowed := true }.indicator 1 .dash)

def readKey : Option Lexer := do
  if !l.inFlow && !l.keyAllowed then none
  let l ← l.openBlock l.cur.col l.tokens.size .blockMap
  let l ← l.dropCandidate
  pure ({ l with keyAllowed := !l.inFlow }.indicator 1 .key)

/-- The candidate, if the colon at the cursor comes in time; a required key must be in time. -/
def timely : Option (Option Candidate) :=
  match l.level.candidate with
  | none => some none
  | some k =>
    if k.isLate l.cur then (if k.required then none else some none) else some (some k)

def forget : Lexer :=
  { l with level := { l.level with candidate := none } }

def readValue : Option Lexer := do
  match ← l.timely with
  | some k =>
    let l ← (l.insertAt k.place .key).openBlock k.col k.place .blockMap
    pure ({ l.forget with keyAllowed := false }.indicator 1 .value)
  | none =>
    let l := l.forget
    if l.inFlow then pure ({ l with keyAllowed := false }.indicator 1 .value)
    else if l.keyAllowed then
      let l ← l.openBlock l.cur.col l.tokens.size .blockMap
      pure (l.indicator 1 .value)
    else none

/-- Takes over a scalar that has been read. If it was left behind a line break, a comment there
belongs to the lines that follow. -/
def accept (s : Scanned) (plain : Bool) : Lexer :=
  let l := { l with cur := s.after, keyAllowed := s.broken }.emit (.scalar s.text plain)
  if s.broken then l else l.skipLineComment

def readScalar (x : Char) : Option Lexer := do
  let l ← l.markCandidate
  match x with
  | '\'' => pure (l.accept (← scanSingle l.size (l.cur.next.ask wordReach) [] {}) false)
  | '"' => pure (l.accept (← scanDouble l.size (l.cur.next.ask wordReach) [] {}) false)
  | _ =>
    let inner := l.indent + 1
    pure (l.accept (← scanPlain l.inFlow inner l.size (l.cur.ask wordReach) [] {}) true)

/-- The characters no plain scalar begins with. -/
def reserved : List Char :=
  ['-', '?', ':', ',', '[', ']', '\x7b', '\x7d', '#', '&', '*', '!', '|', '>', '\'', '"', '%', '@',
    '\x60']

/-- Whether a plain scalar begins with `x` before `xs`. -/
def beginsPlain (x : Char) (xs : List Char) : Bool :=
  !(reserved.contains x || isGapChar x) ||
  (x == '-' && !(xs.head?.map isGapChar).getD false) ||
  (!l.inFlow && (x == '?' || x == ':') && !atGap xs)

def readToken (x : Char) (xs : List Char) : Option Lexer :=
  if l.cur.col == 0 && x == '%' then none
  else if l.cur.atMarker then l.readMarker (if x == '-' then .docStart else .docEnd)
  else match x with
    | '[' => skipLineComment <$> l.openFlow .flowSeq
    | '\x7b' => skipLineComment <$> l.openFlow .flowMap
    | ']' => skipLineComment <$> l.closeFlow .flowSeqEnd
    | '\x7d' => skipLineComment <$> l.closeFlow .flowMapEnd
    | ',' => skipLineComment <$> l.readComma
    | _ =>
      if x == '-' && atGap xs then l.readDash
      else if x == '?' && (l.inFlow || atGap xs) then skipLineComment <$> l.readKey
      else if x == ':' && (l.inFlow || atGap xs) then skipLineComment <$> l.readValue
      else if x == '\'' || x == '"' || l.beginsPlain x xs then l.readScalar x
      else none

/-- Reads the end of the text, which also ends its last line. -/
def readEnd : Option Lexer := do
  let l := if l.cur.col == 0 then l
    else { l with cur := { l.cur with line := l.cur.line + 1, col := 0 } }
  let l ← (l.closeTo (-1)).dropCandidate
  pure ({ l with keyAllowed := false }.emit .streamEnd)

/-- Reads one more token, and the tokens that open or close block collections before it. Behind the
end of the text there are only further ends. -/
def readNext : Option Lexer :=
  let l := skipSpace l.size l
  let l := l.closeTo l.cur.col
  let l := { l with cur := l.cur.ask wordReach }
  match l.cur.rest with
  | [] => l.readEnd
  | x :: xs => l.readToken x xs

/-! ### Reading ahead -/

/-- How many tokens are kept ready. -/
def lookahead : Nat := 3

/-- Whether the first token that is not used may still turn out to begin a key. It is an error if it
had to and does not. -/
def awaitsKey : Option Bool :=
  let waiting := (l.level :: l.suspended).findSome? fun v =>
    v.candidate.filter fun k => k.awaited && k.place == l.used
  match waiting with
  | some k => if k.isLate l.cur then (if k.required then none else some false) else some true
  | none => some false

/-- Reads until the first token that is not used is certain and enough others are ready. -/
def readAhead : (fuel : Nat) → Lexer → Option Lexer
  | 0, _ => none
  | n + 1, l => do
    if l.tokens.size < l.used + lookahead then readAhead n (← l.readNext)
    else if ← l.awaitsKey then readAhead n (← l.readNext)
    else some l

/-- The reading of a text from its beginning, with the number of bytes in its first block. -/
def ofChars (cs : List Char) (room : Nat) : Lexer :=
  { cur := { rest := cs, unloaded := cs, room := room }, size := cs.length + 1 }

end Lexer

end HeapFlow.Document
