import HeapFlow.Result.Dump
import HeapFlow.Source.Load

/-!
# Expectations

A program can be accompanied by what is expected of its analysis: a list of configurations, each
with options and with the points-to sets, call edges and reachable methods that have to come out, or
with an error that has to occur. A comparison of two sets names what is missing and what is
unexpected.
-/

namespace HeapFlow

open Document

/-- A configuration. What is left out is not checked. -/
structure Configuration where
  name : String := ""
  options : Options := {}
  pointsTo : List (String × List String) := []
  calls : Option (List String) := none
  reachable : Option (List String) := none
  /-- Parts of the text of an expected error, one of which has to occur. -/
  errors : List String := []
deriving DecidableEq, Repr, Inhabited

namespace Configuration

/-- Decodes a list of texts; null stands for no list. -/
def decodeTexts : Decoder (List String) :=
  decodeList decodeText

/-- The last pair with each name. -/
def lastOfEach {α : Type} : List (String × α) → List (String × α)
  | [] => []
  | p :: ps => if ps.any fun q => q.1 == p.1 then lastOfEach ps else p :: lastOfEach ps

/-- Decodes the objects of variables; a variable with null has none. -/
def decodeSets : Decoder (List (String × List String)) := fun node => do
  let some pairs ← decodePairs node | pure none
  let sets ← pairs.mapM fun (name, n) => do pure (name, (← decodeTexts n).getD [])
  pure (some (lastOfEach sets))

/-- The value of a field, if it is there and not null. -/
def field? {α : Type} (fields : List (String × Node)) (name : String) (decode : Decoder α) :
    Except Mismatch (Option α) :=
  match fields.lookup name with
  | some n => decode n
  | none => .ok none

def decode : Decoder Configuration := fun node => do
  let some fields ← decodePairs node | pure none
  pure (some {
    name := ← fieldOr fields "name" decodeText ""
    options := ← fieldOr fields "options" (Options.decodeOver {} false) {}
    pointsTo := ← fieldOr fields "points_to" decodeSets []
    calls := ← field? fields "call_edges" decodeTexts
    reachable := ← field? fields "reachable" decodeTexts
    errors := ← fieldOr fields "expected_errors" decodeTexts [] })

/-- Decodes a document of configurations. -/
def decodeAll : Decoder (List Configuration) := fun node => do
  let some fields ← decodePairs node | pure none
  pure (some (← fieldOr fields "configurations" (decodeList decode) []))

end Configuration

def configurationsOfText (text : String) : Except Mismatch (List Configuration) :=
  decodeText? Configuration.decodeAll [] text

/-! ### Checking -/

/-- What came of a configuration. -/
structure Verdict where
  configuration : Configuration
  success : Bool
  message : String
  details : List String := []
deriving DecidableEq, Repr, Inhabited

/-- The differences between two sets: first what is missing, then what is unexpected. -/
def compareSets (what : String) (want got : List String) : List String :=
  let missing := want.filter fun w => !got.contains w
  let unexpected := (got.filter fun g => !want.contains g).eraseDups
  (Text.sortTexts missing).map (fun m => what ++ ": missing " ++ m) ++
  (Text.sortTexts unexpected).map fun u => what ++ ": unexpected " ++ u

namespace Configuration

/-- The labels of the objects of the variable with a given text; if several have it, the last one
counts. -/
def objectsOf (r : Result) (name : String) : List String :=
  match r.vars.reverse.find? fun v => r.program.varText v == name with
  | some v => (r.pointsTo v).map r.label
  | none => []

def edgeText (e : CallEdge CallSite MethodId) : String :=
  e.site.label ++ " -> " ++ e.callee.text

/-- Compares a list that may be left out. -/
def compareOptional (what : String) (want : Option (List String)) (got : List String) :
    List String :=
  match want with
  | some w => compareSets what w got
  | none => []

def validate (c : Configuration) (r : Result) : Verdict :=
  let sets := c.pointsTo.mergeSort fun a b => Text.textLE a.1 b.1
  let details :=
    (sets.flatMap fun (name, want) =>
      compareSets ("points-to set of " ++ name) want (objectsOf r name)) ++
    compareOptional "call edges" c.calls (r.callGraph.edges.map edgeText) ++
    compareOptional "reachable methods" c.reachable (r.reachable.map MethodId.text)
  let checked := c.pointsTo.length + (if c.calls.isSome then 1 else 0) +
    (if c.reachable.isSome then 1 else 0)
  { configuration := c
    success := details.isEmpty
    message := if details.isEmpty then "All " ++ toString checked ++ " checks passed"
      else "Test failed: " ++ toString details.length ++ " mismatches"
    details := details }

/-- The verdict on an analysis that has no policy: an error has to be expected. -/
def refused (c : Configuration) (e : PolicyError) : Option Verdict :=
  if c.errors.any fun w => Text.occursIn w.toList e.creationMessage.toList then
    some {
      configuration := c
      success := true
      message := "Got expected error: " ++ e.creationMessage }
  else none

/-- The verdict on a configuration; none if the analysis fails in an unexpected way. -/
def check (p : Program) (c : Configuration) : Option Verdict :=
  match Policy.parse c.options.cs with
  | .error e => c.refused e
  | .ok policy => match analyze p c.options policy [] with
    | .error _ => none
    | .ok r =>
      if c.errors.isEmpty then some (c.validate r)
      else some {
        configuration := c
        success := false
        message := "Expected an error"
        details := c.errors }

end Configuration

/-- What came of all configurations. -/
structure Assessment where
  verdicts : List Verdict
  success : Bool
  message : String
deriving DecidableEq, Repr, Inhabited

def Assessment.of (verdicts : List Verdict) : Assessment :=
  let failed := verdicts.filter fun v => !v.success
  let size := toString verdicts.length
  { verdicts := verdicts
    success := failed.isEmpty
    message :=
      if failed.isEmpty then "All " ++ size ++ " configurations passed"
      else toString failed.length ++ "/" ++ size ++ " configurations failed:\n" ++
        "\n".intercalate (failed.map fun v => "[" ++ v.configuration.name ++ "] " ++ v.message ++
          ":\n  " ++ "\n  ".intercalate v.details) }

/-- Checks a program against configurations, of which there has to be one; none if an analysis fails
in an unexpected way. -/
def assess (p : Program) (cs : List Configuration) : Option Assessment :=
  if cs.isEmpty then none else (cs.mapM (Configuration.check p)).map Assessment.of

end HeapFlow
