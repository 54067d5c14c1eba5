import HeapFlow.CommandLine.Clock
import HeapFlow.CommandLine.Files
import HeapFlow.CommandLine.Flags
import HeapFlow.CommandLine.Json
import HeapFlow.RapidTypes
import HeapFlow.Result.Profile
import HeapFlow.Source.Load

/-!
# A run of the command

A run reads its options and all programs first, and then analyses each program under each policy.
Dumps are written after each analysis and metrics after the last one, so a run that fails leaves the
files it has written until then, but prints nothing except why it failed.

`CommandLine.run` needs a `Host` for the files and the time and yields an `Outcome`: the exit code
and the texts for the two output streams.
-/

namespace HeapFlow.CommandLine

/-! ### Failures -/

inductive RunError where
  | flags (cause : FlagError)
  | noProgram
  | optionsFile (cause : FileError)
  | optionsDocument (path : String)
  /-- A policy does not exist; the path is that of the options that name it. -/
  | policy (path : Option String) (cause : PolicyError)
  | programFile (cause : FileError)
  | program (path : String) (cause : ReadError)
  | analysis (path : String) (cause : AnalysisError)
  | dumpDirectory (cause : FileError)
  | dump (cause : FileError)
  | metrics (cause : FileError)
deriving DecidableEq, Repr

/-- How an error is worded, if a text that is no document is said to be `malformed`. -/
def RunError.message (malformed : String) : RunError → String
  | flags e => e.message
  | noProgram => "requires at least 1 arg(s), only received 0"
  | optionsFile e => "reading options: " ++ e.message
  | optionsDocument path => path ++ ": parsing options: " ++ malformed
  | policy none e => OptionsError.policyMessage e
  | policy (some path) e => path ++ ": " ++ OptionsError.policyMessage e
  | programFile e => "analyze: loading program: reading program: " ++ e.message
  | program path e => "analyze: loading program: " ++ path ++ ": " ++ e.message malformed
  | analysis path e => "analyze: " ++ path ++ ": " ++ e.message
  | dumpDirectory e => "analyze: creating dump directory: " ++ e.message
  | dump e => "analyze: creating dump: " ++ e.message
  | metrics e => "analyze: creating metrics file: " ++ e.message

/-! ### What a run finds out -/

/-- What is printed of one analysis. -/
structure Analysis where
  program : String
  report : Report
  digest : String
  profile : String
deriving DecidableEq, Repr

/-- What is printed of the call graph of a program by instantiated types. -/
structure Baseline where
  program : String
  methods : Nat
  calls : Nat
  types : Nat
deriving DecidableEq, Repr

structure Findings where
  analyses : List Analysis := []
  /-- The call graphs by instantiated types. -/
  baselines : List Baseline := []
  /-- The number of events out of order. -/
  violations : Nat := 0
  metrics : List Metric := []
deriving DecidableEq, Repr

/-- What the command leaves behind, apart from files. -/
structure Outcome where
  exit : UInt8 := 0
  stdout : String := ""
  stderr : String := ""
  /-- Whether a log of the run was asked for, which goes where the messages go. -/
  logged : Bool := false
deriving DecidableEq, Repr

/-! ### The steps of a run -/

namespace Settings

/-- The options that the flags override. -/
def override (s : Settings) (o : Options) : Options :=
  { o with
    onlyApp := s.onlyApp.getD o.onlyApp
    implicitEntries := s.implicitEntries.getD o.implicitEntries
    checkConstraints := s.checkConstraints.getD o.checkConstraints }

/-- The names of the policies, each once: those of the flags, or else that of the options. -/
def policies (s : Settings) (o : Options) : List String :=
  match s.cs.getD [] with
  | [] => [o.cs]
  | cs => cs.eraseDups

def optionSets (s : Settings) (o : Options) : Except PolicyError (List Options) :=
  (s.policies o).mapM fun cs => do
    let _ ← Policy.parse cs
    pure { s.override o with cs := cs }

/-- Whether the events of an analysis are counted. -/
def counts (s : Settings) : Bool :=
  s.metrics ≠ "" || 0 < s.top

/-- The observers that are added to an analysis. -/
def observers (s : Settings) (check : Bool) : List Observer :=
  (if s.counts then [.profiler] else []) ++ (if check then [.checker] else [])

def summary (s : Settings) (program : String) (r : Result) : Analysis where
  program := program
  report := r.report s.verbose
  digest := r.digest
  profile := if 0 < s.top then r.profile s.top.toNat else ""

end Settings

def Baseline.of (path : String) (p : Program) (o : Options) : Baseline :=
  let r := RapidTypes.analyze p ⟨o.implicitEntries, o.classInit⟩
  { program := path
    methods := r.graph.reachable.length
    calls := r.graph.edges.length
    types := r.types.length }

section Steps

variable {m : Type → Type} [Monad m]

/-- Goes on with the value of an operation on files, or fails with an error of the run. -/
def attempt {α : Type} (wrap : FileError → RunError) (x : m (Except FileError α)) :
    ExceptT RunError m α :=
  ExceptT.mk do
    match ← x with
    | .ok a => pure (.ok a)
    | .error e => pure (.error (wrap e))

def loadOptions (h : Host m) (s : Settings) : ExceptT RunError m Options := do
  if s.config.isEmpty then pure {}
  else
    let text ← attempt .optionsFile (h.read s.config)
    match Options.ofText text with
    | .ok o => pure o
    | .error .document => throw (.optionsDocument s.config)
    | .error (.policy e) => throw (.policy (some s.config) e)

/-- The options of each analysis. -/
def analysisOptions (h : Host m) (s : Settings) : ExceptT RunError m (List Options) := do
  match s.optionSets (← loadOptions h s) with
  | .ok os => pure os
  | .error e => throw (.policy none e)

def loadProgram (h : Host m) (path : String) : ExceptT RunError m (String × Program) := do
  let text ← attempt .programFile (h.read path)
  match Program.ofText text with
  | .ok p => pure (path, p)
  | .error e => throw (.program path e)

/-- Writes the dump of a result, if there is a directory for it. -/
def writeDump (h : Host m) (s : Settings) (path : String) (r : Result) :
    ExceptT RunError m Unit := do
  unless s.dump.isEmpty do
    attempt .dumpDirectory (h.makeDirs s.dump)
    attempt .dump (h.write (Path.ofDump s.dump path r.policy.name) r.dump)

/-- Adds a result to the findings. -/
def addResult (h : Host m) (s : Settings) (path : String) (found : Findings) (r : Result) :
    ExceptT RunError m Findings := do
  writeDump h s path r
  pure { found with
    analyses := found.analyses ++ [s.summary path r]
    violations := found.violations + r.state.checker.violations.length
    metrics :=
      if s.metrics.isEmpty then found.metrics else r.metrics.foldl Metric.add found.metrics }

/-- Analyses a program under each of the options. Whether events are checked is decided by the first
options, for all. -/
def analyzeProgram (h : Host m) (s : Settings) (os : List Options) (found : Findings)
    (program : String × Program) : ExceptT RunError m Findings := do
  let (path, p) := program
  let first := os.headD {}
  let more := s.observers first.checkConstraints
  match os.mapM fun o => analyzeNamed p { o with checkConstraints := false } more with
  | .error e => throw (.analysis path e)
  | .ok results =>
    let found ← results.foldlM (addResult h s path) found
    if s.rta then pure { found with baselines := found.baselines ++ [Baseline.of path p first] }
    else pure found

/-- Writes the metrics, if there is a path for them. -/
def writeMetrics (h : Host m) (s : Settings) (found : Findings) : ExceptT RunError m Unit := do
  unless s.metrics.isEmpty do
    let lines := Metric.allLines found.metrics
    attempt .metrics (h.write s.metrics (String.join (lines.map (· ++ "\n"))))

/-- Analyses all programs under each of the options. -/
def analyzeUnder (h : Host m) (s : Settings) (os : List Options) : ExceptT RunError m Findings := do
  let programs ← s.programs.mapM (loadProgram h)
  let found ← programs.foldlM (analyzeProgram h s os) {}
  writeMetrics h s found
  pure found

def analyzePrograms (h : Host m) (s : Settings) : ExceptT RunError m Findings := do
  analyzeUnder h s (← analysisOptions h s)

end Steps

/-! ### The output -/

def Analysis.text (a : Analysis) : String :=
  let s := a.report.stats
  a.program ++ " [" ++ s.policy ++ "]: " ++ toString s.methods ++ " reachable methods, " ++
  toString s.calls ++ " call edges, " ++ toString s.pointers ++ " pointers, " ++
  toString s.objects ++ " objects, " ++ toString s.contexts ++ " contexts (" ++ a.digest ++ ")\n" ++
  String.join (a.report.pointsTo.map fun x =>
    "  " ++ x.var ++ " -> [" ++ ", ".intercalate x.objects ++ "]\n") ++
  (if a.profile.isEmpty then "" else "\n" ++ a.profile)

def Baseline.text (b : Baseline) : String :=
  b.program ++ " [rta]: " ++ toString b.methods ++ " reachable methods, " ++
  toString b.calls ++ " call edges, " ++ toString b.types ++ " runtime types\n"

def Findings.text (f : Findings) : String :=
  String.join (f.analyses.map Analysis.text) ++ String.join (f.baselines.map Baseline.text)

def statsJson (s : Stats) : Json :=
  .record [("selector", .str s.policy), ("reachable_methods", .num s.methods),
    ("reachable_cs_methods", .num s.methodsIn), ("call_edges", .num s.calls),
    ("cs_call_edges", .num s.callsIn), ("pointers", .num s.pointers), ("objects", .num s.objects),
    ("cs_objects", .num s.objectsIn), ("contexts", .num s.contexts)]

def Analysis.json (a : Analysis) : Json :=
  .record ([("program", .str a.program), ("stats", statsJson a.report.stats),
      ("digest", .str a.digest)] ++
    Json.listField "reachable_methods" (a.report.reachable.map .str) ++
    Json.listField "points_to" (a.report.pointsTo.map fun x =>
      .record [("var", .str x.var), ("objects", .list (x.objects.map .str))]) ++
    (if a.profile.isEmpty then [] else [("profile", .str a.profile)]))

def Baseline.json (b : Baseline) : Json :=
  .record [("program", .str b.program), ("reachable_methods", .num b.methods),
    ("call_edges", .num b.calls), ("runtime_types", .num b.types)]

def versionName : String := "dev"

/-- The findings as JSON, with the time that the run has taken and the time of its end. -/
def Findings.json (f : Findings) (span instant : Nat) : Json :=
  .record ([("analyses", .list (f.analyses.map Analysis.json))] ++
    Json.listField "baselines" (f.baselines.map Baseline.json) ++
    [("violations", .num f.violations), ("duration", .str (spanText span)),
      ("version", .str versionName), ("timestamp", .str (instantText instant))])

def versionText : String :=
  "pta version " ++ versionName ++ "\n  commit: unknown\n  built:  unknown\n"

/-! ### The command -/

def RunError.outcome (malformed : String) (e : RunError) : Outcome :=
  { exit := 2, stderr := e.message malformed ++ "\n" }

/-- The outcome of a run with findings. Events out of order are a failure after the output. -/
def Findings.outcome (f : Findings) (json : Bool) (span instant : Nat) : Outcome where
  exit := if 0 < f.violations then 1 else 0
  stdout := if json then (f.json span instant).text "" ++ "\n" else f.text
  stderr := if 0 < f.violations then toString f.violations ++ " constraint violations\n" else ""

/-- Does what settings ask for. -/
def Settings.run {m : Type → Type} [Monad m] (s : Settings) (h : Host m) : m Outcome := do
  if s.help then pure { stdout := h.help }
  else if s.version then pure { stdout := versionText }
  else if s.programs.isEmpty then pure (RunError.noProgram.outcome h.malformed)
  else
    let start ← h.clock
    match ← (analyzePrograms h s).run with
    | .error e => pure (e.outcome h.malformed)
    | .ok found =>
      let finish ← h.clock
      pure (found.outcome s.json (finish - start) finish)

/-- **Runs the command** with the words of a command line. -/
def run {m : Type → Type} [Monad m] (h : Host m) (words : List String) : m Outcome := do
  match Settings.read {} words with
  | .error r =>
    pure { (RunError.flags r.cause).outcome h.malformed with logged := r.settings.verbose }
  | .ok s => pure { ← s.run h with logged := s.verbose }

end HeapFlow.CommandLine
