import HeapFlow.Program.Hierarchy
import HeapFlow.Solver.State

/-!
# Adding facts

The actions through which facts enter the state. Objects added to a pointer only wait; they become
objects of the pointer when the waiting work is done (`Act.propagate`), and only those that are new
go on along the flow edges. A flow edge that gets a new transfer is given what its source has so
far; so no object is missed, whichever of the two comes first.
-/

namespace HeapFlow

def State.fits (s : State) (p : Program) (t : Ty) (o : CObjId) : Bool :=
  p.isSubtype (s.registry.objType o) t

/-- The objects passed on when objects are handed to a transfer. -/
def Setup.passOn (g : Setup) (s : State) (x : Passage) : Objects :=
  match x.transfer with
  | .custom key => g.custom key s x
  | t => t.apply (s.fits g.program) x.objects

/-- The state after objects have been handed to a transfer: what it gives waits for the target. -/
def State.handed (g : Setup) (s : State) (x : Passage) : State :=
  let given := g.passOn s x
  { s with
    passed := ⟨x, given⟩ :: s.passed
    work := if given.isEmpty then s.work else s.work.addObjects x.dst given }

namespace Act

/-- Asks the registry for something. -/
def register {α : Type} (f : Registry → α × Registry) : Act α := do
  let s ← get
  let (a, r) := f s.registry
  set { s with registry := r }
  pure a

def pointer (g : Setup) (x : Pointer) : Act PtrId := do
  match (← get).registry.admits g.program x with
  | .error e => throw (.pointer e)
  | .ok _ => register (·.pointer x)

def variablePtr (ctx : CtxId) (v : Var) : Act PtrId :=
  register (·.pointer (.var ctx v))

/-- Lets objects wait for a pointer. -/
def addObjects (p : PtrId) (t : Objects) : Act Unit := do
  if !t.isEmpty then
    modify fun s => { s with work := s.work.addObjects p t }

def addToVar (ctx : CtxId) (v : Var) (o : CObjId) : Act Unit := do
  addObjects (← variablePtr ctx v) (OrderedSet.singleton o)

/-- Adds a flow edge with a transfer. If the transfer is new to the edge, what the source has passes
through it. -/
def addFlow (g : Setup) (src dst : PtrId) (kind : FlowKind) (t : Transfer) : Act Unit := do
  let s ← get
  let (isNew, flow) := s.flow.attach src dst kind t
  set { s with flow := flow }
  if isNew && !(s.pointsTo src).isEmpty then
    modify fun s => s.handed g ⟨src, dst, kind, t, s.pointsTo src⟩

def addCall (e : CCallEdge) : Act Unit :=
  modify fun s => { s with work := s.work.addCall e }

def setContainer (s : CSiteId) (m : CMethodId) : Act Unit :=
  modify fun st => { st with calls := (st.calls.setContainer s m).2 }

/-- Adds objects to a pointer and passes those that are new along the flow edges; returns the new
ones. -/
def propagate (g : Setup) (p : PtrId) (t : Objects) : Act Objects := do
  let s ← get
  let delta := t.diff (s.pointsTo p)
  if delta.isEmpty then pure delta
  else
    set ((s.flow.passages p delta).foldl (State.handed g)
      (s.setObjects p ((s.pointsTo p).union delta)))
    pure delta

/-- An abstract object in the context that the policy chooses for objects made by a method. -/
def allocate (g : Setup) (m : CMethodId) (o : ObjId) : Act CObjId := do
  let c ← register fun r => g.policy.heapContext r m
  register (·.object c o)

end Act

end HeapFlow
