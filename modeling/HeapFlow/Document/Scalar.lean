import HeapFlow.Document.Cursor
import HeapFlow.Text.Quoted

/-!
# Scalars

A scalar is written plainly or between quotes. In every form it may run over several lines: blanks
around a line break are dropped, one break becomes a space, and of several breaks all but the first
are kept. A `Gap` collects the blanks and breaks between two runs of other characters until it is
known whether the scalar goes on.
-/

namespace HeapFlow.Document

/-- The number of characters asked for where a word begins: as many as a document marker needs with
the blank behind it. -/
def wordReach : Nat := 4

/-- The number of characters asked for within a word. -/
def innerReach : Nat := 2

/-- The number of characters asked for where a line break begins. -/
def breakReach : Nat := 2

/-- The blanks and breaks since the last other character of a scalar. -/
structure Gap where
  blanks : List Char := []
  broken : Bool := false
  /-- What the first break contributes, unless it was escaped. -/
  first : List Char := []
  later : List Char := []

namespace Gap

/-- One more blank; after a break blanks are dropped. -/
def addBlank (g : Gap) (c : Char) : Gap :=
  if g.broken then g else { g with blanks := g.blanks ++ [c] }

def addBreak (g : Gap) (c : Char) : Gap :=
  if g.broken then { g with later := g.later ++ [c] }
  else { broken := true, first := [c] }

/-- What the gap contributes when the scalar goes on. -/
def text (g : Gap) : List Char :=
  if g.broken then
    if g.first == ['\n'] then (if g.later.isEmpty then [' '] else g.later) else g.first ++ g.later
  else g.blanks

def isEmpty (g : Gap) : Bool :=
  !g.broken && g.blanks.isEmpty

/-- Asks for what a gap needs where it begins: there is none yet. -/
def enter (g : Gap) (c : Cursor) : Cursor :=
  if g.isEmpty then c.ask 1 else c

/-- Asks for what a word needs where it begins: behind a gap. -/
def leave (g : Gap) (c : Cursor) : Cursor :=
  if g.isEmpty then c else c.ask wordReach

def readBlank (g : Gap) (x : Char) (c : Cursor) : Gap × Cursor :=
  (g.addBlank x, (g.enter c).next.ask 1)

def readBreak (g : Gap) (c : Cursor) : Gap × Cursor :=
  let (b, c) := ((g.enter c).ask breakReach).takeBreak
  (g.addBreak b, c.ask 1)

end Gap

/-- A scalar that has been read: its text, the cursor after it, and whether it was left after a line
break. -/
structure Scanned where
  text : String
  after : Cursor
  broken : Bool := false

/-- The characters that end a plain scalar inside a flow collection. -/
def flowStops : List Char := [',', '?', '[', ']', '\x7b', '\x7d']

/-- Reads a plain scalar. `inner` is the least column on which it may go on; in a flow collection
indentation is free. The characters read so far are kept backwards. -/
def scanPlain (flow : Bool) (inner : Int) :
    (fuel : Nat) → Cursor → List Char → Gap → Option Scanned
  | 0, c, acc, g => some ⟨String.ofList acc.reverse, c, g.broken⟩
  | n + 1, c, acc, g =>
    let stop (c : Cursor) := some ⟨String.ofList acc.reverse, c, g.broken⟩
    let outside := !g.isEmpty && !flow && (c.col : Int) < inner
    match c.rest with
    | [] => stop (if outside then c else g.leave c)
    | x :: xs =>
      if isGapChar x then
        if g.broken && (c.col : Int) < inner && x == '\t' then none
        else
          let (g, c) := g.readBlank x c
          scanPlain flow inner n c acc g
      else if isBreak x then
        let (g, c) := g.readBreak c
        scanPlain flow inner n c acc g
      else if outside then stop c
      else
        let c := g.leave c
        if !g.isEmpty && (c.atMarker || x == '#') then stop c
        else if x == ':' && atGap xs then stop c
        else if flow && flowStops.contains x then stop c
        else scanPlain flow inner n (c.next.ask innerReach) (x :: (g.text.reverse ++ acc)) {}

/-- Reads the rest of a scalar between single quotes, where a doubled quote stands for one. -/
def scanSingle : (fuel : Nat) → Cursor → List Char → Gap → Option Scanned
  | 0, _, _, _ => none
  | n + 1, c, acc, g =>
    match c.rest with
    | [] => none
    | x :: xs =>
      if isGapChar x then
        let (g, c) := g.readBlank x c
        scanSingle n c acc g
      else if isBreak x then
        let (g, c) := g.readBreak c
        scanSingle n c acc g
      else
        let c := g.leave c
        let acc := g.text.reverse ++ acc
        if c.atMarker then none
        else if x != '\'' then scanSingle n (c.next.ask innerReach) (x :: acc) {}
        else if xs.head? == some '\'' then
          scanSingle n ((c.skip 2).ask innerReach) ('\'' :: acc) {}
        else some ⟨String.ofList acc.reverse, c.next, false⟩

def letterEscape? : Char → Option Char
  | '0' => some '\x00'
  | 'a' => some '\x07'
  | 'b' => some '\x08'
  | 't' => some '\t'
  | '\t' => some '\t'
  | 'n' => some '\n'
  | 'v' => some '\x0b'
  | 'f' => some '\x0c'
  | 'r' => some '\r'
  | 'e' => some '\x1b'
  | ' ' => some ' '
  | '"' => some '"'
  | '\'' => some '\''
  | '\\' => some '\\'
  | 'N' => some '\u0085'
  | '_' => some '\u00a0'
  | 'L' => some '\u2028'
  | 'P' => some '\u2029'
  | _ => none

def hexEscape? : Char → Option Nat
  | 'x' => some 2
  | 'u' => some 4
  | 'U' => some 8
  | _ => none

/-- Reads the escape after a backslash: its character and the number of digits behind its letter. -/
def scanEscape : List Char → Option (Char × Nat)
  | [] => none
  | l :: rest => match hexEscape? l with
    | some w => do
      let (v, _) ← Text.takeHex w 0 rest
      if v.isValidChar then pure (Char.ofNat v, w) else none
    | none => (letterEscape? l).map (·, 0)

/-- Reads the rest of a scalar between double quotes. An escaped line break contributes nothing. -/
def scanDouble : (fuel : Nat) → Cursor → List Char → Gap → Option Scanned
  | 0, _, _, _ => none
  | n + 1, c, acc, g =>
    match c.rest with
    | [] => none
    | x :: xs =>
      if isGapChar x then
        let (g, c) := g.readBlank x c
        scanDouble n c acc g
      else if isBreak x then
        let (g, c) := g.readBreak c
        scanDouble n c acc g
      else
        let c := g.leave c
        let acc := g.text.reverse ++ acc
        if c.atMarker then none
        else if x == '"' then some ⟨String.ofList acc.reverse, c.next, false⟩
        else if x != '\\' then scanDouble n (c.next.ask innerReach) (x :: acc) {}
        else if (xs.head?.map isBreak).getD false then
          let c := ((c.ask (breakReach + 1)).next.takeBreak.2).ask 1
          if c.rest.head? == some '"' then some ⟨String.ofList acc.reverse, c.next, false⟩
          else scanDouble n c acc { broken := true }
        else do
          let (y, digits) ← scanEscape xs
          let c := (((c.skip 2).ask digits).skip digits).ask innerReach
          scanDouble n c (y :: acc) {}

end HeapFlow.Document
