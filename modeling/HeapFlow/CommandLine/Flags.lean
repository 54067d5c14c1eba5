import HeapFlow.CommandLine.Record
import HeapFlow.Text.CharClass
import HeapFlow.Text.Integer
import HeapFlow.Text.Quoted

/-!
# Flags

A command line is a list of words: flags, the values of flags, and the paths of programs, in any
order. A flag is written out after two hyphens or, if it has a letter, abbreviated after one, where
several letters may share the hyphen. The value of a flag comes after an equals sign or is the next
word, but a switch takes a value only after an equals sign. After the word `--` all words are paths.
-/

namespace HeapFlow.CommandLine

open Text

inductive Flag where
  | verbose | json | config | cs | onlyApp | implicitEntries | checkConstraints | rta | profile
  | metrics | dump | top | help | version
deriving DecidableEq, Repr

namespace Flag

def all : List Flag :=
  [verbose, json, config, cs, onlyApp, implicitEntries, checkConstraints, rta, profile, metrics,
    dump, top, help, version]

def name : Flag → String
  | verbose => "verbose"
  | json => "json"
  | config => "config"
  | cs => "cs"
  | onlyApp => "only-app"
  | implicitEntries => "implicit-entries"
  | checkConstraints => "check-constraints"
  | rta => "rta"
  | profile => "profile"
  | metrics => "metrics"
  | dump => "dump"
  | top => "top"
  | help => "help"
  | version => "version"

def letter? : Flag → Option Char
  | verbose => some 'v'
  | help => some 'h'
  | _ => none

def needsValue : Flag → Bool
  | config | cs | metrics | dump | top => true
  | _ => false

def ofName? (name : String) : Option Flag :=
  all.find? fun f => f.name = name

def ofLetter? (c : Char) : Option Flag :=
  all.find? fun f => f.letter? = some c

/-- How messages name a flag. -/
def title (f : Flag) : String :=
  match f.letter? with
  | some c => "-" ++ c.toString ++ ", --" ++ f.name
  | none => "--" ++ f.name

end Flag

/-- Why a flag does not take a value. -/
inductive ValueError where
  /-- It is neither true nor false. -/
  | switch (value : String)
  /-- It is no number, or too large a one. -/
  | number (value : String) (cause : DecimalError)
  | list (cause : RecordError)
deriving DecidableEq, Repr

def ValueError.message : ValueError → String
  | switch v => "strconv.ParseBool: parsing " ++ quote v ++ ": " ++ DecimalError.message .invalid
  | number v e => "strconv.ParseInt: parsing " ++ quote v ++ ": " ++ e.message
  | list e => e.message

/-- Why a command line is refused. -/
inductive FlagError where
  /-- A word has hyphens but no name. -/
  | malformed (word : String)
  | unknown (name : String)
  /-- No flag has the first of these letters. -/
  | unknownLetter (letter : Char) (letters : String)
  | noValue (flag : Flag)
  | badValue (flag : Flag) (value : String) (cause : ValueError)
deriving DecidableEq, Repr

/-- How a letter is shown between single quotes. All letters beyond ASCII are shown alike, by the
character whose number is the first byte of their bytes encoded once more. -/
def letterText (c : Char) : String :=
  let body := if c.toNat = 39 then "\\'" else if c = '"' then "\""
    else if 0x80 ≤ c.toNat then "Ã" else String.ofList (quoteChar c)
  "'" ++ body ++ "'"

def FlagError.message : FlagError → String
  | malformed w => "bad flag syntax: " ++ w
  | unknown n => "unknown flag: --" ++ n
  | unknownLetter c s => "unknown shorthand flag: " ++ letterText c ++ " in -" ++ s
  | noValue f => "flag needs an argument: --" ++ f.name
  | badValue f v e =>
    "invalid argument " ++ quote v ++ " for " ++ quote f.title ++ " flag: " ++ e.message

/-- What a command line asks for. Where a flag overrides the options, it matters whether it is
given. -/
structure Settings where
  programs : List String := []
  /-- Points-to sets are listed, and the run is logged. -/
  verbose : Bool := false
  json : Bool := false
  /-- The path of the options, or nothing. -/
  config : String := ""
  /-- The names of the context policies, if the flag is given. -/
  cs : Option (List String) := none
  onlyApp : Option Bool := none
  /-- Whether the methods that the runtime calls are entries. -/
  implicitEntries : Option Bool := none
  /-- Whether the order of events is checked. -/
  checkConstraints : Option Bool := none
  /-- The call graph by instantiated types is built as well. -/
  rta : Bool := false
  profile : Bool := false
  metrics : String := ""
  dump : String := ""
  /-- The length of the lists of a profile; there is none unless it is positive. -/
  top : Int := 0
  help : Bool := false
  version : Bool := false
deriving DecidableEq, Repr, Inhabited

structure Refusal where
  cause : FlagError
  /-- What the words up to there have asked for. -/
  settings : Settings
deriving DecidableEq, Repr

def readSwitch (s : String) : Except ValueError Bool :=
  if ["1", "t", "T", "TRUE", "true", "True"].contains s then .ok true
  else if ["0", "f", "F", "FALSE", "false", "False"].contains s then .ok false
  else .error (.switch s)

namespace Settings

/-- The settings after a flag with a value. The first list of policies counts from nothing, and
later ones are appended. -/
def set (s : Settings) (f : Flag) (value : String) : Except ValueError Settings := do
  match f with
  | .verbose => pure { s with verbose := ← readSwitch value }
  | .json => pure { s with json := ← readSwitch value }
  | .config => pure { s with config := value }
  | .cs => match readList value with
    | .error e => throw (.list e)
    | .ok l => pure { s with cs := some (s.cs.getD [] ++ l) }
  | .onlyApp => pure { s with onlyApp := some (← readSwitch value) }
  | .implicitEntries => pure { s with implicitEntries := some (← readSwitch value) }
  | .checkConstraints => pure { s with checkConstraints := some (← readSwitch value) }
  | .rta => pure { s with rta := ← readSwitch value }
  | .profile => pure { s with profile := ← readSwitch value }
  | .metrics => pure { s with metrics := value }
  | .dump => pure { s with dump := value }
  | .top => match readInteger value.toList with
    | .error e => throw (.number value e)
    | .ok n => pure { s with top := n }
  | .help => pure { s with help := ← readSwitch value }
  | .version => pure { s with version := ← readSwitch value }

/-- The settings after a flag with a value that it does not take: a switch is off then. -/
def setOff (s : Settings) : Flag → Settings
  | .verbose => { s with verbose := false }
  | .json => { s with json := false }
  | .onlyApp => { s with onlyApp := some false }
  | .implicitEntries => { s with implicitEntries := some false }
  | .checkConstraints => { s with checkConstraints := some false }
  | .rta => { s with rta := false }
  | .profile => { s with profile := false }
  | .help => { s with help := false }
  | .version => { s with version := false }
  | _ => s

/-- Sets a flag, or tells which flag does not take which value. -/
def setFlag (s : Settings) (f : Flag) (value : String) : Except Refusal Settings :=
  match s.set f value with
  | .ok s => .ok s
  | .error e => .error ⟨.badValue f value e, s.setOff f⟩

def addProgram (s : Settings) (path : String) : Settings :=
  { s with programs := s.programs ++ [path] }

/-- Whether letters are meant for a test run. -/
def forTestRun (cs : List Char) : Bool :=
  "test.".toList.isPrefixOf cs

/-- Reads letters that share a hyphen. Those meant for a test run are passed over. -/
def readLetters (s : Settings) : List Char → Except Refusal Settings
  | [] => .ok s
  | c :: cs =>
    if forTestRun (c :: cs) then .ok s
    else match Flag.ofLetter? c with
      | none => .error ⟨.unknownLetter c (String.ofList (c :: cs)), s⟩
      | some f => match cs with
        | '=' :: v :: vs => s.setFlag f (String.ofList (v :: vs))
        | _ => do readLetters (← s.setFlag f "true") cs

/-- What a word stands for. -/
inductive Word where
  | path
  | stop
  /-- A flag with its name and the value that the word holds. -/
  | named (name : String) (value : Option String)
  | letters (cs : List Char)
  | malformed
deriving DecidableEq, Repr

def Word.of (word : String) : Word :=
  match word.toList with
  | ['-', '-'] => stop
  | '-' :: '-' :: c :: cs =>
    if c = '-' || c = '=' then malformed
    else match cutAt? '=' (c :: cs) with
      | some (name, value) => named (String.ofList name) (some (String.ofList value))
      | none => named (String.ofList (c :: cs)) none
  | '-' :: c :: cs => letters (c :: cs)
  | _ => path

/-- Reads the words of a command line. -/
def read (s : Settings) : List String → Except Refusal Settings
  | [] => .ok s
  | word :: words => match Word.of word with
    | .path => read (s.addProgram word) words
    | .stop => .ok (words.foldl addProgram s)
    | .malformed => .error ⟨.malformed word, s⟩
    | .letters cs => do read (← s.readLetters cs) words
    | .named name value => match Flag.ofName? name with
      | none => .error ⟨.unknown name, s⟩
      | some f => match value, f.needsValue with
        | some v, _ => do read (← s.setFlag f v) words
        | none, false => do read (← s.setFlag f "true") words
        | none, true => match words with
          | [] => .error ⟨.noValue f, s⟩
          | v :: words => do read (← s.setFlag f v) words

end Settings

end HeapFlow.CommandLine
