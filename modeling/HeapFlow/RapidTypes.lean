import HeapFlow.CallGraph
import HeapFlow.Program.Hierarchy

/-!
# Call graphs from instantiated types

A cheaper call graph asks only which types are instantiated anywhere in reachable code: a virtual
call may reach the methods of every such type that fits the class named at the call. Whenever a type
is first instantiated it is paired with all virtual calls met so far, and whenever a virtual call is
met it is paired with all types instantiated so far; so every pair is considered once.
-/

namespace HeapFlow

structure RapidOptions where
  implicitEntries : Bool := false
  classInit : Bool := true
deriving DecidableEq, Repr, Inhabited

/-- What has been found. -/
structure RapidTypes where
  graph : MethodCallGraph := {}
  /-- The instantiated types, in the order of their discovery. -/
  types : List Ty := []
  /-- The virtual calls met so far, with the methods they name. -/
  virtualCalls : List (CallSite × CallKind × MethodId) := []
  initialized : List String := []

namespace RapidTypes

def reach (s : RapidTypes) (m : MethodId) : RapidTypes :=
  { s with graph := (s.graph.addReachable m).2 }

/-- Adds a call edge, which makes the callee reachable. -/
def connect (s : RapidTypes) (kind : CallKind) (site : CallSite) (callee : MethodId) : RapidTypes :=
  reach { s with graph := (s.graph.addEdge ⟨kind, site, callee⟩).2 } callee

variable (p : Program)

/-- Considers a virtual call for an instantiated type. -/
def pair (s : RapidTypes) (call : CallSite × CallKind × MethodId) (t : Ty) :
    RapidTypes :=
  let (site, kind, target) := call
  if p.isSubtype t (.cls target.cls) then
    match p.dispatch t target.subsig with
    | some m => s.connect kind site m.id
    | none => s
  else s

def instantiate (s : RapidTypes) (t : Ty) : RapidTypes :=
  if !t.holdsObjects || s.types.contains t then s
  else
    let s := { s with types := s.types ++ [t] }
    s.virtualCalls.foldl (fun s call => pair p s call t) s

def meet (s : RapidTypes) (call : CallSite × CallKind × MethodId) : RapidTypes :=
  let s := { s with virtualCalls := s.virtualCalls ++ [call] }
  s.types.foldl (fun s t => pair p s call t) s

/-- Initializes a class and its superclasses, as far as they are not; the static initializers of
superclasses become reachable first. -/
def initClass (o : RapidOptions) (s : RapidTypes) (c : String) : RapidTypes :=
  if !o.classInit then s
  else
    let fresh := (p.chain c).takeWhile fun k => !s.initialized.contains k.name
    let s := { s with initialized := s.initialized ++ fresh.map (·.name) }
    (fresh.reverse.filterMap Class.clinit?).foldl (fun s m => s.reach m.id) s

/-- Initializes the class of a type, for an array that of its innermost elements. -/
def initType (o : RapidOptions) (s : RapidTypes) (t : Ty) : RapidTypes :=
  match t.base with
  | .cls c => s.initClass p o c
  | _ => s

def visitDirect (o : RapidOptions) (s : RapidTypes) (site : CallSite) (c : Call) :
    RapidTypes :=
  match p.resolve c.target with
  | none => s
  | some m =>
    if m.isAbstract then s
    else
      let s := if c.kind = .static then s.initClass p o m.id.cls else s
      s.connect c.kind site m.id

def visitStmt (o : RapidOptions) (m : MethodId) (s : RapidTypes) (index : Nat) :
    Stmt → RapidTypes
  | .new _ t _ => (s.instantiate p t).initType p o t
  | .const _ l =>
    let s := (s.instantiate p l.type).initType p o l.type
    match l with
    | .cls t => s.initType p o t
    | _ => s
  | .loadStatic _ f => s.initClass p o f.cls
  | .storeStatic f _ => s.initClass p o f.cls
  | .invoke c =>
    let site := CallSite.body m index
    let s := { s with graph := (s.graph.setContainer site m).2 }
    match c.kind with
    | .virtual => s.meet p (site, c.kind, c.target)
    | .interface => s.meet p (site, c.kind, c.target)
    | .static => s.visitDirect p o site c
    | .special => s.visitDirect p o site c
    | _ => s
  | _ => s

def visitMethod (o : RapidOptions) (s : RapidTypes) (m : MethodId) : RapidTypes :=
  match p.method? m with
  | none => s
  | some d =>
    let s := if d.isStatic then s.initClass p o m.cls else s
    d.indexedBody.foldl (fun s (i, stmt) => s.visitStmt p o m i stmt) s

/-- Makes an entry method reachable; a static `main` that takes an array is given one. -/
def enter (s : RapidTypes) (m : MethodId) : RapidTypes :=
  let s := { s with graph := s.graph.addEntry m }.reach m
  match p.method? m with
  | none => s
  | some d =>
    if d.name == "main" && d.isStatic then
      match d.params.head?.map d.varType with
      | some (.array t) => (s.instantiate p (.array t)).instantiate p t
      | _ => s
    else s

/-- Visits the reachable methods from the `i`-th on, at most `fuel` of them. -/
def visitFrom (p : Program) (o : RapidOptions) : (fuel i : Nat) → RapidTypes → RapidTypes
  | 0, _, s => s
  | n + 1, i, s => match s.graph.reachable[i]? with
    | none => s
    | some m => visitFrom p o n (i + 1) (s.visitMethod p o m)

/-- **Analyses a program by its instantiated types.** No more methods are visited than there are. -/
def analyze (o : RapidOptions) : RapidTypes :=
  let entries := p.entries ++ (if o.implicitEntries then p.implicitEntries else [])
  let methods := total (p.classes.map fun c => c.methods.length)
  visitFrom p o methods 0 (entries.foldl (enter p) {})

end RapidTypes

end HeapFlow
