import HeapFlow.Solver.Machine

/-!
# Results

The result of a finished analysis answers questions without contexts: which abstract objects a
variable, a field or an array may hold, in any context, and which methods a call site may call. An
answer is the union over all contexts, in the order of the objects' numbers.
-/

namespace HeapFlow

structure Result where
  program : Program
  policy : Policy
  state : State
  /-- The variables with a pointer, in the order in which they turned up. -/
  vars : List Var
  /-- The abstract objects that are in some context, by number. -/
  objects : List ObjId
  /-- The methods reachable in some context, in the order in which they were reached. -/
  reachable : List MethodId

/-- The result of a run that has come to its end. -/
def Machine.result (g : Setup) (m : Machine) : Except Failure Result :=
  match m.failure, m.state.snapshot with
  | some e, _ => .error e
  | none, none => .error (.unfinished m.state.work.size)
  | none, some s => .ok {
      program := g.program
      policy := g.policy
      state := m.state
      vars := s.vars
      objects := s.objects
      reachable := s.reachable }

/-- **Analyses a program**: the policy and the observers are those that the options ask for, and
further observers come after them. -/
def analyze (p : Program) (o : Options) (policy : Policy) (more : List Observer) :
    Except Failure Result :=
  let g := o.setup p policy more
  (g.solve []).result g

/-- Why one of several analyses has no result. -/
inductive AnalysisError where
  | policy (cs : String) (cause : PolicyError)
  | failure (cs : String) (cause : Failure)
deriving DecidableEq, Repr

/-- How it is worded that a policy does not exist. -/
def PolicyError.creationMessage (e : PolicyError) : String :=
  "creating context selector: " ++ e.message

def AnalysisError.message : AnalysisError → String
  | policy cs e => "analysis " ++ Text.quote cs ++ ": " ++ e.creationMessage
  | failure _ e => e.message

/-- Analyses a program with the policy that the options name. -/
def analyzeNamed (p : Program) (o : Options) (more : List Observer) :
    Except AnalysisError Result :=
  match Policy.parse o.cs with
  | .error e => .error (.policy o.cs e)
  | .ok policy => match analyze p o policy more with
    | .error e => .error (.failure o.cs e)
    | .ok r => .ok r

/-- Analyses a program once for each of several options. -/
def analyzeAll (p : Program) (os : List Options) : Except AnalysisError (List Result) :=
  os.mapM fun o => analyzeNamed p o []

namespace Result

variable (r : Result)

def registry : Registry :=
  r.state.registry

def label (o : ObjId) : String :=
  match r.registry.heap.get? o with
  | some x => x.label
  | none => ""

/-- The abstract objects of pointers, by number and without repetition. -/
def collapse (ps : List PtrId) : List ObjId :=
  let objs := ps.flatMap fun p => (r.state.pointsTo p).toList.map r.registry.objId
  (OrderedSet.ofList objs).toList

def pointsTo (v : Var) : List ObjId :=
  r.collapse (r.registry.pointersOf v)

/-- The objects of a variable in a context; none if it has no pointer there. -/
def pointsToIn (ctx : CtxId) (v : Var) : List CObjId :=
  match r.registry.pointer? (.var ctx v) with
  | some p => (r.state.pointsTo p).toList
  | none => []

def fieldPointsTo (v : Var) (f : FieldId) : List ObjId :=
  let bases := (r.registry.pointersOf v).flatMap fun p => (r.state.pointsTo p).toList
  r.collapse (bases.filterMap fun o => r.registry.pointer? (.field o f))

def objFieldPointsTo (o : ObjId) (f : FieldId) : List ObjId :=
  r.collapse ((r.registry.instancesOf o).filterMap fun o => r.registry.pointer? (.field o f))

def elemsPointsTo (o : ObjId) : List ObjId :=
  r.collapse ((r.registry.instancesOf o).filterMap fun o => r.registry.pointer? (.elems o))

def staticPointsTo (f : FieldId) : List ObjId :=
  r.collapse (r.registry.pointer? (.static f)).toList

def mayAlias (v w : Var) : Bool :=
  (r.pointsTo v).any fun o => (r.pointsTo w).contains o

def objectNamed? (label : String) : Option ObjId :=
  r.objects.find? fun o => r.label o == label

/-! ### The call graph without contexts -/

def plainEdge (e : CCallEdge) : CallEdge CallSite MethodId :=
  ⟨e.kind, r.registry.callSite e.site, r.registry.methodId e.callee⟩

def callGraph : MethodCallGraph :=
  let calls := r.state.calls
  let method := r.registry.methodId
  let g := calls.entries.foldl (fun g m => g.addEntry (method m)) {}
  let g := calls.reachable.foldl (fun g m =>
    (calls.sitesIn m).foldl (fun g s => (g.setContainer (r.registry.callSite s) (method m)).2)
      (g.addReachable (method m)).2) g
  calls.edges.foldl (fun g e => (g.addEdge (r.plainEdge e)).2) g

end Result

end HeapFlow
