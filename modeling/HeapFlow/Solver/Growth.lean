import HeapFlow.Solver.Facts

/-!
# Growing variables and new call edges

When a variable gets new objects, the statements that go through it concern these objects: the
fields and elements of each of them exchange objects with other variables, and every call on the
variable has a new receiver. The receiver is passed to its callee directly and not along a flow
edge, because the callee's context may depend on it.

A new call edge makes its callee reachable; arguments flow to parameters and returned variables to
the result.
-/

namespace HeapFlow

def State.arraysIn (s : State) (t : Objects) : List CObjId :=
  t.toList.filter fun o => (s.registry.objType o).isArray

namespace Act

variable (g : Setup)

def growStores (ctx : CtxId) (d : Method) (v : Slot) (delta : Objects) : Act Unit := do
  for (_, f, x) in d.storesThrough v do
    if (d.varType x).holdsObjects then
      let src ← variablePtr ctx (.declared d.id x)
      for o in delta.toList do
        addFlow g src (← pointer g (.field o f)) .store .all

def growLoads (ctx : CtxId) (d : Method) (v : Slot) (delta : Objects) : Act Unit := do
  for (_, f, x) in d.loadsThrough v do
    if (d.varType x).holdsObjects then
      let dst ← variablePtr ctx (.declared d.id x)
      for o in delta.toList do
        addFlow g (← pointer g (.field o f)) dst .load .all

/-- Lets a pointer flow into the elements of an array, as far as their type allows. -/
def storeElems (src : PtrId) (array : CObjId) : Act Unit := do
  let elems ← pointer g (.elems array)
  let t := (← get).registry.pointerType g.program (.elems array)
  addFlow g src elems .storeElem (.ofType t)

/-- Lets the elements of an array flow into a pointer. -/
def loadElems (array : CObjId) (dst : PtrId) : Act Unit := do
  addFlow g (← pointer g (.elems array)) dst .loadElem .all

def growElemStores (ctx : CtxId) (d : Method) (v : Slot) (delta : Objects) :
    Act Unit := do
  for (_, x) in d.elemStoresThrough v do
    if (d.varType x).holdsObjects then
      let src ← variablePtr ctx (.declared d.id x)
      for o in (← get).arraysIn delta do storeElems g src o

def growElemLoads (ctx : CtxId) (d : Method) (v : Slot) (delta : Objects) :
    Act Unit := do
  for (_, x) in d.elemLoadsThrough v do
    if (d.varType x).holdsObjects then
      let dst ← variablePtr ctx (.declared d.id x)
      for o in (← get).arraysIn delta do loadElems g o dst

/-- What follows when a variable grows. -/
def grow (p : PtrId) (ctx : CtxId) (v : Var) (delta : Objects) : Act (List Task) := do
  let told := [Task.notify (.grown p delta) g.observers]
  match v.slot?, g.program.method? v.method with
  | some x, some d =>
    growStores g ctx d x delta
    growLoads g ctx d x delta
    growElemStores g ctx d x delta
    growElemLoads g ctx d x delta
    let calls := (d.callsOn x).map fun (i, _) => Task.receive ctx (.body d.id i) delta.toList
    pure (calls ++ told)
  | _, _ => pure told

def deliver (p : PtrId) (t : Objects) : Act (List Task) := do
  let delta ← propagate g p t
  if delta.isEmpty then pure []
  else match (← get).registry.pointers.get? p with
    | some (.var ctx v) =>
      if g.onlyApp && !g.program.isApplication v.method then pure []
      else grow g p ctx v delta
    | _ => pure []

/-- Enters a call site for new receivers. -/
def receive (ctx : CtxId) (site : CallSite) (objs : List CObjId) : Act (List Task) := do
  let s ← register (·.site ctx site)
  pure (objs.map (Task.dispatch s))

/-- The method that a call reaches for a receiver: none if it is missing, abstract or static. -/
def callee (site : CallSite) (c : Call) (o : CObjId) : Act (Option Method) := do
  let found ← match c.kind with
    | .special => pure (g.program.resolve c.target)
    | .virtual => pure (g.program.dispatch ((← get).registry.objType o) c.target.subsig)
    | .interface => pure (g.program.dispatch ((← get).registry.objType o) c.target.subsig)
    | k => throw (.receiver site k)
  pure (found.filter fun m => !m.isAbstract && !m.isStatic)

/-- Adds a call edge to a method for a receiver, which becomes its `this`. -/
def callOn (kind : CallKind) (s : CSiteId) (o : CObjId) (m : MethodId) : Act Unit := do
  let c ← register fun r => g.policy.calleeContext r s o
  let cm ← register (·.method c m)
  addCall ⟨kind, s, cm⟩
  addToVar c (.declared m 0) o

def dispatch (s : CSiteId) (o : CObjId) : Act (List Task) := do
  let r := (← get).registry
  let site := r.callSite s
  match g.program.call? site with
  | none => pure []
  | some c => match ← callee g site c o with
    | some m =>
      callOn g c.kind s o m.id
      pure []
    | none => pure [.notify (.unresolved (some o) (r.siteContext s) site) g.observers]

/-! ### Call edges -/

/-- Adds a call edge to the call graph and, if it is new, makes its callee reachable. -/
def connect (e : CCallEdge) : Act (List Task) := do
  let s ← get
  let (isNew, calls) := s.calls.addEdge e
  set { s with calls := calls }
  if !isNew then pure []
  else
    if (calls.container? e.site).isNone then
      let r := s.registry
      let m ← register (·.method (r.siteContext e.site) (r.callSite e.site).method)
      setContainer e.site m
    pure [.reach e.callee, .wire e]

def passArguments (g : Setup) (caller callee : CtxId) (home : MethodId) (d : Method) :
    List (Slot × Slot) → Act Unit
  | [] => pure ()
  | (a, x) :: rest => do
    if g.program.holdsObjects (.declared home a) then
      let src ← variablePtr caller (.declared home a)
      addFlow g src (← variablePtr callee (.declared d.id x)) .param .all
    passArguments g caller callee home d rest

def passResult (caller callee : CtxId) (home : MethodId) (d : Method) (result : Slot) :
    Act Unit := do
  if g.program.holdsObjects (.declared home result) then
    let dst ← variablePtr caller (.declared home result)
    for v in d.returned do
      if (d.varType v).holdsObjects then
        addFlow g (← variablePtr callee (.declared d.id v)) dst .ret .all

/-- Lets the arguments and the result of a call edge flow. Edges made by models pass nothing. -/
def wire (e : CCallEdge) : Act (List Task) := do
  let r := (← get).registry
  let site := r.callSite e.site
  let caller := r.siteContext e.site
  let callee := r.methodContext e.callee
  if e.kind ≠ .other then
    match g.program.call? site, g.program.method? (r.methodId e.callee) with
    | some c, some d =>
      if c.args.length ≠ d.params.length then
        throw (.arguments site c.args.length d.id)
      passArguments g caller callee site.method d (c.args.zip d.params)
      if let some x := c.result then
        passResult g caller callee site.method d x
    | _, _ => pure ()
  pure [.notify (.call e) g.observers]

/-! ### Methods and classes -/

/-- Makes a method in a context reachable; the first time, its statements are to be turned into
facts. -/
def reach (m : CMethodId) : Act (List Task) := do
  let s ← get
  let (isNew, calls) := s.calls.addReachable m
  set { s with calls := calls }
  let id := s.registry.methodId m
  if !isNew || (g.onlyApp && !g.program.isApplication id) then pure []
  else
    let told := if s.methods.contains id then [] else [Task.notify (.method id) g.observers]
    modify fun s =>
      { s with methods := if s.methods.contains id then s.methods else s.methods ++ [id] }
    let size := match g.program.method? id with
      | some d => d.body.length
      | none => 0
    pure (told ++ (List.range size).map (Task.enact m) ++ [.notify (.methodIn m) g.observers])

def entry (m : MethodId) : Act (List Task) := do
  let cm ← register (·.method Contexts.emptyCtx m)
  modify fun s => { s with calls := s.calls.addEntry cm }
  pure [.reach cm]

/-- Initializes a class, unless it is initialized: first its superclass, then its initializer. -/
def initClass (c : String) : Act (List Task) := do
  let s ← get
  match g.program.class? c with
  | none => pure []
  | some k =>
    if s.initialized.contains c then pure []
    else
      set { s with initialized := s.initialized ++ [c] }
      let above := match k.super with
        | some u => [Task.initClass u]
        | none => []
      pure (.notify (.initialized c) g.observers :: above ++ [.clinit c])

/-- Makes the static initializer of a class reachable. -/
def clinit (c : String) : Act (List Task) := do
  match (g.program.class? c).bind Class.clinit? with
  | none => pure []
  | some d => pure [.reach (← register (·.method Contexts.emptyCtx d.id))]

end Act

end HeapFlow
