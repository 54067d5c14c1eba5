import HeapFlow.Options
import HeapFlow.Solver.Event
import HeapFlow.Solver.Script

/-!
# The state of an analysis

A run of an analysis changes one `State`: the registry of what has turned up, the objects of every
pointer, the flow graph, the call graph, the work that waits, and what the observers remember. All
of it only grows, except the waiting work.

Steps of a run are actions on the state that may fail; a failed action leaves the state as it was
when it failed.
-/

namespace HeapFlow

/-- Why an action fails. -/
inductive Failure where
  | pointer (cause : PointerError)
  | heap (cause : HeapError)
  /-- A call that takes no receiver is made on one. -/
  | receiver (site : CallSite) (kind : CallKind)
  /-- A call edge leads to a method with another number of parameters. -/
  | arguments (site : CallSite) (given : Nat) (callee : MethodId)
  | dimensions (type : Ty)
  /-- A copy of array elements has no such argument. -/
  | noArgument (site : CallSite) (position : Nat)
  /-- The result is asked for while work waits. -/
  | unfinished (waiting : Nat)
  | startedTwice
  /-- A pointer that is no variable is checked as one. -/
  | noVariable
deriving DecidableEq, Repr

def Failure.message : Failure → String
  | pointer e => e.message
  | heap e => e.message
  | receiver s k => s.label ++ ": " ++ k.text ++ " call with receiver"
  | arguments s n m => s.label ++ ": " ++ toString n ++ " arguments for " ++ m.text
  | dimensions t => "too many dimensions for " ++ t.name
  | noArgument s i => s.label ++ ": no argument " ++ toString i
  | unfinished n =>
    "solver: result requested before the fixpoint (" ++ toString n ++ " entries pending)"
  | startedTwice => "solver: Solve called twice"
  | noVariable => "runtime error: invalid memory address or nil pointer dereference"

/-! ### What observers remember -/

structure Threads where
  /-- The thread objects that have been started. -/
  running : Objects := ∅
  /-- The contexts in which the running thread is asked for. -/
  asking : List CtxId := []

/-- A call that copies array elements. -/
structure CopyCall where
  method : MethodId
  src : Slot
  dst : Slot
deriving DecidableEq, Repr, Inhabited

/-- What the checker has been told. -/
structure Checker where
  methods : List MethodId := []
  methodsIn : List CMethodId := []
  violations : List String := []
deriving Repr, Inhabited

/-- What the profiler has counted. -/
structure Profile where
  methods : Nat := 0
  methodsIn : Nat := 0
  calls : Nat := 0
  unresolved : Nat := 0
  initialized : Nat := 0
  /-- The sizes of the sets by which variables grew. -/
  deltaTotal : Nat := 0
  /-- The variables that grew, once for each time. -/
  grown : List PtrId := []
deriving Repr, Inhabited

inductive LogEntry where
  | event (text : String)
  /-- That an operation is done, with the sizes of the analysis. -/
  | done (name : String) (pointers objects contexts flowEdges callEdges : Nat)
  | text (s : String)
  | texts (l : List String)
  | failed (cause : Failure)
deriving DecidableEq, Repr

/-- What the result lists, as it was when the analysis had finished. -/
structure Snapshot where
  vars : List Var
  /-- The abstract objects that are in some context. -/
  objects : List ObjId
  reachable : List MethodId
deriving Repr, Inhabited

/-! ### State -/

structure State where
  registry : Registry := {}
  sets : Array Objects := #[]
  flow : FlowGraph := {}
  /-- What has been handed to transfers, the latest first. -/
  passed : List Handing := []
  calls : CallGraph CSiteId CMethodId := {}
  work : WorkList := {}
  methods : List MethodId := []
  initialized : List String := []
  threads : Threads := {}
  /-- The calls that copy array elements; the number of a temporary is the position. -/
  copies : List CopyCall := []
  checker : Checker := {}
  profile : Profile := {}
  log : List LogEntry := []
  script : Script := []
  snapshot : Option Snapshot := none

namespace State

def pointsTo (s : State) (p : PtrId) : Objects :=
  s.sets[p]?.getD ∅

def setObjects (s : State) (p : PtrId) (t : Objects) : State :=
  let sets := s.sets ++ Array.replicate (p + 1 - s.sets.size) ∅
  { s with sets := sets.setIfInBounds p t }

def write (s : State) (e : LogEntry) : State :=
  { s with log := s.log ++ [e] }

end State

/-- What is fixed during a run. -/
structure Setup where
  program : Program
  policy : Policy
  merging : Merging := {}
  /-- Whether the bodies of library methods are skipped. -/
  onlyApp : Bool := false
  observers : List Observer := []
  /-- What the custom transfers pass on. They may look at the state, and in particular at what they
  have been handed so far. -/
  custom : (key : Nat) → State → Passage → Objects := fun _ _ _ => ∅

/-- An action on the state that may fail. -/
abbrev Act := EStateM Failure State

/-- What is left to do, besides the waiting work. -/
inductive Task where
  | notify (e : Event) (observers : List Observer)
  | entry (m : MethodId)
  /-- Give the arguments to an entry method that takes them. -/
  | arguments (m : MethodId)
  | reach (m : CMethodId)
  /-- Turn the statement at a position of a method in a context into facts. -/
  | enact (m : CMethodId) (index : Nat)
  | initClass (cls : String)
  | clinit (cls : String)
  | receive (ctx : CtxId) (site : CallSite) (objs : List CObjId)
  | dispatch (site : CSiteId) (o : CObjId)
  | wire (e : CCallEdge)
  | op (o : Op)
  /-- Write down what an operation answered. -/
  | answer (a : OpAnswer)
  | drain
  | finish
deriving DecidableEq

end HeapFlow
