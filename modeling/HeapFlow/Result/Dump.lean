import HeapFlow.Result.Basic
import HeapFlow.Text.Digest

/-!
# Dumps

A dump is the text of a result in a canonical form: four sections of sorted lines, for the reachable
methods, the call edges, the objects of the variables and those of the static fields. Nothing in it
depends on the order in which things turned up, so two analyses that find the same write the same
text, and the digest of the text tells results apart.
-/

namespace HeapFlow

open Text

/-- A section: its title with the number of lines, the lines, and an empty line. -/
def dumpSection (title : String) (lines : List String) : String :=
  "# " ++ title ++ " (" ++ toString lines.length ++ ")\n" ++
  String.join (lines.map (· ++ "\n")) ++ "\n"

namespace Result

variable (r : Result)

def labels (objs : List ObjId) : List String :=
  sortTexts (objs.map r.label)

/-- What something holds, unless it is nothing. -/
def heldLine (what : String) (objs : List ObjId) : Option String :=
  if objs.isEmpty then none
  else some (what ++ " -> [" ++ ", ".intercalate (r.labels objs) ++ "]")

/-- The static fields that reachable methods touch. -/
def staticFields : List FieldId :=
  (r.reachable.flatMap fun m => match r.program.method? m with
    | some d => d.body.filterMap Stmt.staticField?
    | none => []).eraseDups

def methodLines : List String :=
  sortTexts (r.reachable.map MethodId.text)

def edgeLines : List String :=
  compact (sortTexts (r.callGraph.edges.map CallEdge.plainText))

def varLines : List String :=
  compact (sortTexts (r.vars.filterMap fun v => r.heldLine (r.program.varText v) (r.pointsTo v)))

def staticLines : List String :=
  sortTexts (r.staticFields.filterMap fun f => r.heldLine f.text (r.staticPointsTo f))

/-- **The dump of a result.** -/
def dump : String :=
  dumpSection "reachable methods" r.methodLines ++
  dumpSection "call edges" r.edgeLines ++
  dumpSection "points-to sets" r.varLines ++
  dumpSection "static fields" r.staticLines

/-- The digest of the dump, written in hexadecimal. -/
def digest : String :=
  Digest.text (Digest.ofText r.dump)

end Result

end HeapFlow
