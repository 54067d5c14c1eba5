/-!
# Reading a document character by character

A cursor is what is left of a text together with the position reached: how many characters have been
read, and in which line and column the next one stands. Indentation carries the structure of a
document, and an implicit key may not cross a line.

A text is loaded in blocks of bytes, and a block is checked for characters that no document may
contain when it is loaded. Reading asks for the characters that it is going to look at, and only
then the blocks that hold them are loaded, so a text that goes on far behind its first document is
not checked to its end. If what `Cursor.ask` asks for cannot be loaded, the text is malformed.

Loading is visible in one more way. As long as what was left at the last loading begins with a mark
of the byte order, lines may begin with a mark, and one character is passed over at their beginning.
-/

namespace HeapFlow.Document

def isBreak (c : Char) : Bool :=
  c == '\n' || c == '\r' || c == '\u0085' || c == '\u2028' || c == '\u2029'

/-- Whether a character separates words within a line. -/
def isGapChar (c : Char) : Bool :=
  c == ' ' || c == '\t'

/-- Whether a text is at its end, at a blank or at a line break. -/
def atGap : List Char → Bool
  | [] => true
  | c :: _ => isGapChar c || isBreak c

/-- Whether a document may contain a character at all. -/
def isAllowed (c : Char) : Bool :=
  let n := c.toNat
  n == 0x9 || n == 0xa || n == 0xd || (0x20 ≤ n && n ≤ 0x7e) || n == 0x85 ||
    (0xa0 ≤ n && n ≤ 0xfffd) || 0x10000 ≤ n

def byteOrderMark : Char := '\ufeff'

def blockSize : Nat := 512

/-- What is left of a text, and the position of its first character. -/
structure Cursor where
  rest : List Char
  index : Nat := 0
  line : Nat := 0
  col : Nat := 0
  /-- The number of characters that are loaded, but not read yet. The end of the text counts as one
  whenever it is met. -/
  loaded : Nat := 0
  unloaded : List Char
  /-- The number of bytes in the next block. -/
  room : Nat := blockSize
  /-- Whether what was left at the last loading began with a mark of the byte order. -/
  marked : Bool := false
  /-- Whether characters that reading cannot do without are not allowed. -/
  spoiled : Bool := false
  /-- Whether characters that reading only had a look at are not allowed. -/
  doubtful : Bool := false

namespace Cursor

/-! ### Loading -/

/-- Takes the characters that have room in a block, as long as they are allowed: how many they are,
what is behind them, and whether all of them are. -/
def takeBlock : (taken room : Nat) → List Char → Nat × List Char × Bool
  | taken, _, [] => (taken, [], true)
  | taken, room, c :: cs =>
    if room < c.utf8Size then (taken, c :: cs, true)
    else if isAllowed c then takeBlock (taken + 1) (room - c.utf8Size) cs
    else (taken, c :: cs, false)

/-- Loads blocks until `n` characters are loaded or the text is at its end, and tells whether all
characters are allowed. -/
def load (n : Nat) : (fuel : Nat) → Cursor → Cursor × Bool
  | 0, c => (c, true)
  | fuel + 1, c =>
    if n ≤ c.loaded then (c, true)
    else if c.unloaded.isEmpty then ({ c with loaded := c.loaded + 1 }, true)
    else
      let (taken, unloaded, allowed) := takeBlock 0 c.room c.unloaded
      let c := { c with loaded := c.loaded + taken, unloaded := unloaded, room := blockSize }
      if allowed then load n fuel c else (c, false)

variable (c : Cursor)

/-- Makes sure that the next `n` characters are loaded, and tells whether they are. -/
def tryAsk (n : Nat) : Cursor × Bool :=
  if n ≤ c.loaded then (c, true)
  else load n n { c with marked := c.rest.head? == some byteOrderMark }

/-- Asks for the next `n` characters, without which reading cannot go on. -/
def ask (n : Nat) : Cursor :=
  match c.tryAsk n with
  | (c, true) => c
  | (c, false) => { c with spoiled := true }

/-! ### Moving on -/

/-- Passes over a character as if it took a column of its line. -/
def pass : Cursor :=
  { c with rest := c.rest.tail, index := c.index + 1, col := c.col + 1, loaded := c.loaded - 1 }

/-- Reads one character. A carriage return before a line feed belongs to the same break. -/
def next : Cursor :=
  match c.rest with
  | [] => c
  | x :: xs =>
    if isBreak x && !(x == '\r' && xs.head? == some '\n') then
      { c with
        rest := xs, index := c.index + 1, line := c.line + 1, col := 0, loaded := c.loaded - 1 }
    else c.pass

def skip : Nat → Cursor → Cursor
  | 0, c => c
  | n + 1, c => skip n c.next

/-- Reads a line break: what it contributes to a text, and the cursor after it. The separators of
lines and paragraphs stand for themselves, all other breaks for a line feed. -/
def takeBreak : Char × Cursor :=
  match c.rest with
  | '\r' :: '\n' :: _ => ('\n', c.skip 2)
  | '\u2028' :: _ => ('\u2028', c.next)
  | '\u2029' :: _ => ('\u2029', c.next)
  | _ => ('\n', c.next)

/-- Whether a document marker (`---` or `...`) stands at the cursor. -/
def atMarker : Bool :=
  c.col == 0 &&
  match c.rest with
  | '-' :: '-' :: '-' :: after => atGap after
  | '.' :: '.' :: '.' :: after => atGap after
  | _ => false

def toLineEnd : (fuel : Nat) → Cursor → Cursor
  | 0, c => c
  | n + 1, c =>
    let c := c.ask 1
    match c.rest with
    | [] => c
    | x :: _ => if isBreak x then c else toLineEnd n c.next

end Cursor

end HeapFlow.Document
