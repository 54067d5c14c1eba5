import HeapFlow.Program.Statement
import HeapFlow.Text.CharClass

/-!
# The grammar of declarations and statements

A declaration or statement is one line of text. Reading it yields a *form*: the names it mentions
and how they are put together, without asking whether they are declared. A text can have the shape
of several statements – `x = null` is also a copy, `k = A.class` also a load – and then the first
shape in a fixed order counts (`Form.read`).

All shapes are read from left to right without looking back, with one exception: a modifier such as
`static` is one only if what follows is still a declaration, so that a type may be named like it.
-/

namespace HeapFlow.Grammar

open Text

/-! ### Pieces of text -/

/-- Reads the longest run of characters of a class, which must not be empty. -/
def run (ok : Char → Bool) (s : List Char) : Option (String × List Char) :=
  match s.takeWhile ok with
  | [] => none
  | w => some (String.ofList w, s.dropWhile ok)

variable (s : List Char)

def blanks : List Char :=
  s.dropWhile isBlank

/-- Skips blanks, of which there must be one. -/
def someBlanks : Option (List Char) :=
  match s with
  | c :: _ => if isBlank c then some (blanks s) else none
  | [] => none

def exactly : List Char → List Char → Option (List Char)
  | [], s => some s
  | a :: as, b :: s => if a = b then exactly as s else none
  | _ :: _, [] => none

def word (w : String) (s : List Char) : Option (List Char) :=
  exactly w.toList s

/-- Succeeds at the end of the text. -/
def ended : Option Unit :=
  if s.isEmpty then some () else none

/-- Reads a variable name and the equals sign after it. -/
def assigned : Option (String × List Char) := do
  let (x, s) ← run isWordChar s
  let s ← word "=" (blanks s)
  pure (x, blanks s)

/-- Reads what stands between round brackets, up to the end of the text. -/
def bracketed : Option String := do
  let s ← word "(" s
  let inner := s.takeWhile fun c => c ≠ '(' && c ≠ ')'
  let s ← word ")" (s.dropWhile fun c => c ≠ '(' && c ≠ ')')
  ended s
  pure (String.ofList inner)

/-- Reads an index between square brackets, whose text does not matter. -/
def index : Option (List Char) := do
  let s ← word "[" s
  word "]" (s.dropWhile (· ≠ ']'))

/-- The comma-separated pieces of a text that is blank if there are none. -/
def pieces (s : String) : List String :=
  match trim s.toList with
  | [] => []
  | cs => (splitOnChar ',' cs).map String.ofList

/-! ### Declarations -/

structure Typed where
  type : String
  name : String
deriving DecidableEq, Repr

/-- Reads a type and a name up to the end of the text. -/
def typed : Option Typed := do
  let (t, s) ← run isTypeChar s
  let s ← someBlanks s
  let (x, s) ← run isNameChar s
  ended s
  pure ⟨t, x⟩

def declaration? (text : String) : Option Typed :=
  typed (trim text.toList)

/-- Reads a keyword that is followed by a blank. -/
def keyword (w : String) (s : List Char) : Option (List Char) :=
  (word w s).bind someBlanks

/-- A field declaration: whether it is static, its type and its name. -/
def field? (text : String) : Option (Bool × Typed) :=
  let s := trim text.toList
  match (keyword "static" s).bind typed with
  | some t => some (true, t)
  | none => (typed s).map (false, ·)

/-- The words in front of a signature. -/
inductive Modifier where
  | static | abstract | native
deriving DecidableEq, Repr

def modifier : Option (Modifier × List Char) :=
  match keyword "static" s with
  | some s => some (.static, s)
  | none => match keyword "abstract" s with
    | some s => some (.abstract, s)
    | none => (keyword "native" s).map (.native, ·)

/-- The ways to read modifiers from the start of a text, the longest first. -/
def modifiers : (fuel : Nat) → List Char → List (List Modifier × List Char)
  | 0, s => [([], s)]
  | n + 1, s => match modifier s with
    | some (m, rest) => (modifiers n rest).map (fun (ms, r) => (m :: ms, r)) ++ [([], s)]
    | none => [([], s)]

structure Signature where
  modifiers : List Modifier
  ret : String
  name : String
  params : String
deriving DecidableEq, Repr

/-- Reads a signature after its modifiers. -/
def header (ms : List Modifier) (s : List Char) : Option Signature := do
  let (t, s) ← run isTypeChar s
  let s ← someBlanks s
  let (x, s) ← run isMemberChar s
  let ps ← bracketed (blanks s)
  pure ⟨ms, t, x, ps⟩

/-- A method signature, with as many modifiers as can be read. -/
def signature? (text : String) : Option Signature :=
  let s := trim text.toList
  (modifiers s.length s).findSome? fun (ms, rest) => header ms rest

/-! ### Statements -/

/-- The shape of a statement. -/
inductive Form where
  | ret (value : Option String)
  /-- A call; the kind, the result and the qualifying class may be left out. -/
  | call (result : Option String) (kind : Option CallKind) (target : String)
      (qualifier : Option String) (name : String) (args : String)
  /-- `x = new C[..]..`: of each dimension, whether it has a bound. -/
  | new (dst cls : String) (bounds : List Bool)
  /-- `x = "text"`, with the quotes. -/
  | str (dst : String) (quoted : List Char)
  | cls (dst type : String)
  | null (dst : String)
  | int (dst digits : String)
  | cast (dst type src : String)
  | loadElem (dst base : String)
  | storeElem (base src : String)
  | loadField (dst base field : String)
  | storeField (base field src : String)
  | copy (dst src : String)
deriving DecidableEq, Repr

def ret? : Option Form := do
  let s ← word "return" s
  if s.isEmpty then pure (.ret none)
  else
    let (v, s) ← run isWordChar (← someBlanks s)
    ended s
    pure (.ret (some v))

def callKind : Option (CallKind × List Char) :=
  [CallKind.virtual, .interface, .special, .static].findSome? fun k =>
    (keyword k.text s).map (k, ·)

/-- Reads the class in front of a method name, with the two colons after it. -/
def qualifier : Option (String × List Char) := do
  let (q, s) ← run isNameChar s
  pure (q, ← word "::" s)

/-- Reads a call after its result and kind. -/
def callTail (result : Option String) (kind : Option CallKind) (s : List Char) : Option Form := do
  let (target, s) ← run isNameChar s
  let s ← word "." s
  let unqualified := do
    let (name, s) ← run isMemberChar s
    pure (Form.call result kind target none name (← bracketed s))
  match qualifier s with
  | some (q, s') => match run isMemberChar s' with
    | some (name, s'') => match bracketed s'' with
      | some args => pure (.call result kind target (some q) name args)
      | none => unqualified
    | none => unqualified
  | none => unqualified

/-- Reads a call after its result. -/
def callBody (result : Option String) (s : List Char) : Option Form :=
  match (callKind s).bind fun (k, s') => callTail result (some k) s' with
  | some f => some f
  | none => callTail result none s

def call? : Option Form :=
  match (assigned s).bind fun (x, s') => callBody (some x) s' with
  | some f => some f
  | none => callBody none s

/-- Reads the dimensions of an allocation up to the end of the text: of each, whether it has a
bound. -/
def dimensions : (fuel : Nat) → List Char → Option (List Bool)
  | _, [] => some []
  | 0, _ => none
  | n + 1, s => do
    let s ← word "[" s
    let bound := s.takeWhile isWordChar
    let s ← word "]" (s.dropWhile isWordChar)
    pure ((!bound.isEmpty) :: (← dimensions n s))

def new? : Option Form := do
  let (x, s) ← assigned s
  let s ← keyword "new" s
  let (c, s) ← run isNameChar s
  pure (.new x c (← dimensions s.length s))

/-- Whether a text runs up to a closing quote that ends it; a backslash takes the next character
with it, which must not be a line feed. -/
def closesQuote : List Char → Bool
  | ['"'] => true
  | '"' :: _ => false
  | '\\' :: c :: s => c ≠ '\n' && closesQuote s
  | '\\' :: [] => false
  | _ :: s => closesQuote s
  | [] => false

def str? : Option Form := do
  let (x, s) ← assigned s
  match s with
  | '"' :: body => if closesQuote body then pure (.str x s) else none
  | _ => none

def cls? : Option Form := do
  let (x, s) ← assigned s
  let (t, s) ← run isTypeChar s
  let s ← word ".class" s
  ended s
  pure (.cls x t)

def null? : Option Form := do
  let (x, s) ← assigned s
  let s ← word "null" s
  ended s
  pure (.null x)

def int? : Option Form := do
  let (x, s) ← assigned s
  let digits := match s with
    | '-' :: ds => ds
    | ds => ds
  if digits.isEmpty || !digits.all Char.isDigit then none
  pure (.int x (String.ofList s))

def cast? : Option Form := do
  let (x, s) ← assigned s
  let (t, s) ← run isTypeChar (← word "(" s)
  let s ← word ")" s
  let (y, s) ← run isWordChar (blanks s)
  ended s
  pure (.cast x t y)

def loadElem? : Option Form := do
  let (x, s) ← assigned s
  let (y, s) ← run isWordChar s
  let s ← index s
  ended s
  pure (.loadElem x y)

def storeElem? : Option Form := do
  let (x, s) ← run isWordChar s
  let s ← index s
  let s ← word "=" (blanks s)
  let (y, s) ← run isWordChar (blanks s)
  ended s
  pure (.storeElem x y)

def loadField? : Option Form := do
  let (x, s) ← assigned s
  let (y, s) ← run isNameChar s
  let (f, s) ← run isNameChar (← word "." s)
  ended s
  pure (.loadField x y f)

def storeField? : Option Form := do
  let (x, s) ← run isNameChar s
  let (f, s) ← run isNameChar (← word "." s)
  let s ← word "=" (blanks s)
  let (y, s) ← run isWordChar (blanks s)
  ended s
  pure (.storeField x f y)

def copy? : Option Form := do
  let (x, s) ← assigned s
  let (y, s) ← run isWordChar s
  ended s
  pure (.copy x y)

/-- The shapes in the order in which they are tried. -/
def shapes : List (List Char → Option Form) :=
  [ret?, call?, new?, str?, cls?, null?, int?, cast?, loadElem?, storeElem?, loadField?,
    storeField?, copy?]

def Form.read : Option Form :=
  shapes.findSome? fun shape => shape s

end HeapFlow.Grammar
