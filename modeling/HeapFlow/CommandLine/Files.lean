import HeapFlow.Text.CharClass

/-!
# Paths and files

The command line needs little of a file system: to read a file, to write one, and to make sure that
a directory exists. `Host` lists these operations, in any monad, and what else a run needs of its
surroundings. A path is a list of names divided by slashes.
-/

namespace HeapFlow.CommandLine

/-! ### Paths -/

namespace Path

variable (path : String)

/-- The names of a path. Some may be empty. -/
def names : List String :=
  (Text.splitOnChar '/' path.toList).map String.ofList

def isRooted : Bool :=
  path.toList.head? = some '/'

/-- The last name of a path, without the slashes after it. -/
def lastName : String :=
  let cs := path.toList.reverse.dropWhile (· = '/')
  if path.isEmpty then "."
  else if cs.isEmpty then "/"
  else String.ofList (cs.takeWhile (· ≠ '/')).reverse

/-- What begins at the last full stop of the last name. -/
def extension : String :=
  let cs := path.toList.reverse.takeWhile (· ≠ '/')
  match cs.dropWhile (· ≠ '.') with
  | [] => ""
  | _ :: _ => String.ofList ('.' :: (cs.takeWhile (· ≠ '.')).reverse)

def stem : String :=
  let name := (lastName path).toList
  let ext := (extension path).toList
  String.ofList (if ext.isSuffixOf name then name.take (name.length - ext.length) else name)

/-- Goes through the names of a path: empty names and `.` say nothing, and `..` takes back the name
before it, if there is one to take back. -/
def simplify (rooted : Bool) : (done : List String) → List String → List String
  | done, [] => done.reverse
  | done, n :: ns =>
    if n = "" || n = "." then simplify rooted done ns
    else if n = ".." then match done with
      | d :: ds => if d = ".." then simplify rooted (n :: done) ns else simplify rooted ds ns
      | [] => simplify rooted (if rooted then [] else [n]) ns
    else simplify rooted (n :: done) ns

/-- The shortest path that leads to the same place. -/
def clean : String :=
  let kept := "/".intercalate (simplify (isRooted path) [] (names path))
  if isRooted path then "/" ++ kept else if kept.isEmpty then "." else kept

def inside (dir name : String) : String :=
  clean (dir ++ "/" ++ name)

/-- The paths that end before the slash in front of some name of a path, and the path itself. -/
def ancestors : List String :=
  let rec go (done : List Char) : List Char → List String
    | [] => if done.isEmpty then [] else [String.ofList done.reverse]
    | c :: cs => match done with
      | '/' :: above :: more =>
        if c = '/' then go (c :: done) cs
        else String.ofList (above :: more).reverse :: go (c :: done) cs
      | _ => go (c :: done) cs
  go [] path.toList

/-- The path of the dump of a program under a policy. -/
def ofDump (dir program policy : String) : String :=
  inside dir (stem program ++ "." ++ policy ++ ".txt")

end Path

/-! ### Failures -/

inductive FileFault where
  | notFound
  /-- A name that leads on is a file. -/
  | notDirectory
  | isDirectory
  | occupied
  /-- A name, or the whole path, is too long. -/
  | tooLong
  /-- The path holds a character that no name has. -/
  | invalid
  | other (text : String)
deriving DecidableEq, Repr

def FileFault.message : FileFault → String
  | notFound => "no such file or directory"
  | notDirectory => "not a directory"
  | isDirectory => "is a directory"
  | occupied => "file exists"
  | tooLong => "file name too long"
  | invalid => "invalid argument"
  | other text => text

structure FileError where
  action : String
  path : String
  fault : FileFault
deriving DecidableEq, Repr

def FileError.message (e : FileError) : String :=
  e.action ++ " " ++ e.path ++ ": " ++ e.fault.message

/-- **What a run needs of its surroundings.** -/
structure Host (m : Type → Type) where
  read : (path : String) → m (Except FileError String)
  write : (path text : String) → m (Except FileError Unit)
  /-- Makes sure that a directory exists. -/
  makeDirs : (path : String) → m (Except FileError Unit)
  /-- The time, in nanoseconds since the start of the year 1970. -/
  clock : m Nat
  /-- The help, as the library for command lines words it. -/
  help : String
  /-- That a text is no document, as the library for documents words it. -/
  malformed : String

end HeapFlow.CommandLine
