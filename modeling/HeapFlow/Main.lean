import HeapFlow.CommandLine.Run
import Std.Time.DateTime.Timestamp

/-!
# The command

Connects a run of the command to the real files, the real time and the output streams.
-/

namespace HeapFlow.CommandLine

/-- The cause of a failed operation on real files. -/
def faultOf : IO.Error → FileFault
  | .noFileOrDirectory .. => .notFound
  | .alreadyExists .. => .occupied
  | .inappropriateType _ _ details =>
    let text := details.toLower
    if text = FileFault.isDirectory.message then .isDirectory else .other text
  | .invalidArgument _ _ details => .other details.toLower
  | .permissionDenied .. => .other "permission denied"
  | e => .other (toString e)

def onFiles {α : Type} (action path : String) (x : IO α) : IO (Except FileError α) := do
  match ← x.toBaseIO with
  | .ok a => pure (.ok a)
  | .error e => pure (.error ⟨action, path, faultOf e⟩)

/-- Reads a real file. A directory can be opened, but not read. -/
def readReal (path : String) : IO (Except FileError String) := do
  match ← onFiles "open" path (IO.FS.readFile path) with
  | .error ⟨_, path, .isDirectory⟩ => pure (.error ⟨"read", path, .isDirectory⟩)
  | result => pure result

/-- Makes a real directory, if the path leads to none. -/
def makeRealDir (path : String) : IO (Except FileError Unit) := do
  match ← (IO.FS.realPath path).toBaseIO with
  | .error _ => onFiles "mkdir" path (IO.FS.createDir path)
  | .ok found =>
    if ← found.isDir then pure (.ok ()) else pure (.error ⟨"mkdir", path, .notDirectory⟩)

/-- Makes real directories one after the other, until one cannot be made. -/
def makeRealDirs : List String → IO (Except FileError Unit)
  | [] => pure (.ok ())
  | path :: paths => do
    match ← makeRealDir path with
    | .ok _ => makeRealDirs paths
    | .error e => pure (.error e)

def realHost : Host IO where
  read := readReal
  write path text := onFiles "open" path (IO.FS.writeFile path text)
  makeDirs path := makeRealDirs (Path.ancestors path)
  clock := do
    let now ← Std.Time.Timestamp.now
    pure now.toNanosecondsSinceUnixEpoch.toInt.toNat
  help := "Usage:\n  pta [flags] program.yaml...\n"
  malformed := "yaml: malformed document"

end HeapFlow.CommandLine

/-- Runs the command. -/
def main (words : List String) : IO UInt32 := do
  let outcome ← HeapFlow.CommandLine.run HeapFlow.CommandLine.realHost words
  IO.print outcome.stdout
  IO.eprint outcome.stderr
  pure outcome.exit.toUInt32
