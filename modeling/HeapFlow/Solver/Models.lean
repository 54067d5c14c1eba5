import HeapFlow.Solver.Growth

/-!
# Models

Four observers model what the statements of a program do not show:

* the entry methods are reachable from the start, and a static `main` that takes an array is given
  one, with one object in it;
* a class is initialized when a reached method first uses it;
* a started thread runs: its `run` is called from the method that starts it, and the running threads
  are what the method that returns the current thread returns;
* a copy of array elements lets the elements of every source array flow through a temporary variable
  to the elements of every target array, as far as their types allow.
-/

namespace HeapFlow

/-! ### Entry methods -/

/-- The description of the arguments of an entry method. -/
def argumentsDesc : String := "MainArgs"

def argumentDesc : String := "MainArgsElem"

/-- Whether an entry method is given arguments. -/
def Program.takesArguments (p : Program) (m : MethodId) : Bool :=
  match p.method? m with
  | some d => d.name == "main" && d.isStatic
  | none => false

namespace Act

/-- Makes the entry methods reachable; then those that take arguments are given them. -/
def enter (g : Setup) (implicit : Bool) : Act (List Task) := do
  let p := g.program
  let entries := p.entries ++ (if implicit then p.implicitEntries else [])
  pure (entries.map Task.entry ++ (p.entries.filter p.takesArguments).map Task.arguments)

/-- Gives its arguments to an entry method whose first parameter is an array. -/
def giveArguments (g : Setup) (m : MethodId) : Act Unit := do
  match g.program.method? m with
  | none => pure ()
  | some d => match d.params with
    | [] => pure ()
    | x :: _ => match d.varType x with
      | .array t =>
        let ctx := Contexts.emptyCtx
        let o ← register (·.request g.merging (.mock argumentsDesc .none (.array t) (some m)))
        let args ← register (·.object ctx o)
        if t.isReference then
          let e ← register (·.request g.merging (.mock argumentDesc .none t (some m)))
          let elem ← register (·.object ctx e)
          addObjects (← pointer g (.elems args)) (OrderedSet.singleton elem)
        addToVar ctx (.declared m x) args
      | _ => pure ()

end Act

/-! ### Class initialization -/

/-- The initializations that a reached method asks for. -/
def Program.initializations (p : Program) (m : MethodId) : List Task :=
  match p.method? m with
  | some d => (p.activeUses d).map Task.initClass
  | none => []

/-! ### Threads -/

/-- Whether the program has threads: an instance method that starts them, and their body. -/
def Program.hasThreads (p : Program) : Bool :=
  (p.method? HeapFlow.threadStart).any (fun m => !m.isStatic) && (p.method? threadRun).isSome

def Program.returnsThread (p : Program) (m : MethodId) : Bool :=
  p.hasThreads && m = threadCurrent && (p.method? threadCurrent).any (·.isStatic)

namespace Act

/-- Lets threads be returned by the method that returns the running thread. -/
def returnThreads (g : Setup) (ctx : CtxId) (ts : Objects) : Act Unit := do
  match g.program.method? threadCurrent with
  | none => pure ()
  | some d => for v in d.returned do
      addObjects (← variablePtr ctx (.declared d.id v)) ts

/-- Runs threads whose starting method has got them as receivers. -/
def startThreads (g : Setup) (ctx : CtxId) (delta : Objects) : Act Unit := do
  let s ← register (·.site ctx .threadRun)
  for o in delta.toList do
    let run := g.program.dispatch ((← get).registry.objType o) threadRun.subsig
    match run.filter fun m => !m.isAbstract && !m.isStatic with
    | some m => callOn g .other s o m.id
    | none => pure ()
  let t := (← get).threads
  let fresh := delta.diff t.running
  modify fun st => { st with threads := { t with running := t.running.union delta } }
  if !fresh.isEmpty then
    for c in t.asking do returnThreads g c fresh

def threadsGrown (g : Setup) (p : PtrId) (delta : Objects) : Act Unit := do
  if g.program.hasThreads then
    match (← get).registry.pointers.get? p with
    | some (.var ctx v) => if v = .declared threadStart 0 then startThreads g ctx delta
    | _ => pure ()

def threadsReached (g : Setup) (m : CMethodId) : Act Unit := do
  let s ← get
  if g.program.returnsThread (s.registry.methodId m) then
    let ctx := s.registry.methodContext m
    set { s with threads := { s.threads with asking := s.threads.asking ++ [ctx] } }
    returnThreads g ctx s.threads.running

end Act

/-! ### Copies of array elements -/

/-- Whether the program has the method that copies array elements. -/
def Program.hasArrayCopy (p : Program) : Bool :=
  (p.method? HeapFlow.arrayCopy).any (·.isStatic)

def Program.isArrayCopy (p : Program) (c : Call) : Bool :=
  c.kind = .static && (p.resolve c.target).map (·.id) == some HeapFlow.arrayCopy

namespace Act

/-- Takes down the copies that a reached method makes. -/
def copiesReached (g : Setup) (m : MethodId) : Act Unit := do
  match g.program.hasArrayCopy, g.program.method? m with
  | true, some d =>
    for (i, stmt) in d.indexedBody do
      match stmt with
      | .invoke c =>
        if g.program.isArrayCopy c then
          let some src := c.args[0]? | throw (.noArgument (.body m i) 0)
          let some dst := c.args[2]? | throw (.noArgument (.body m i) 2)
          modify fun s => { s with copies := s.copies ++ [⟨m, src, dst⟩] }
      | _ => pure ()
  | _, _ => pure ()

/-- Connects new arrays with the temporaries of the copies they take part in. -/
def copiesGrown (g : Setup) (p : PtrId) (delta : Objects) : Act Unit := do
  match (← get).registry.pointers.get? p with
  | some (.var ctx v) =>
    let copies := (← get).copies.zipIdx
    for (c, n) in copies do
      if v = .declared c.method c.src then
        let dst ← variablePtr ctx (.copyTemp c.method n)
        for o in (← get).arraysIn delta do loadElems g o dst
    for (c, n) in copies do
      if v = .declared c.method c.dst then
        let src ← variablePtr ctx (.copyTemp c.method n)
        for o in (← get).arraysIn delta do storeElems g src o
  | _ => pure ()

end Act

end HeapFlow
