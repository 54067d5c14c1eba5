import HeapFlow.Solver.Growth

/-!
# Monitors

Three observers only watch. The *checker* finds events that come too early: a method in a context
before the method itself, or a variable that grows before its method, or its method in its context,
has been announced; receivers are exempt, because they are bound together with their call edge. The
*profiler* counts. The *recorder* writes every event down, and a scripted one then has the
operations carried out that its script has for the event.
-/

namespace HeapFlow

namespace Act

/-! ### The checker -/

/-- Takes down that something came before what announces it. -/
def violation (early announced : String) : Act Unit :=
  modify fun s => { s with checker := { s.checker with
    violations := s.checker.violations ++
      ["hit " ++ early ++ " before processing " ++ announced] } }

def checkMethod (m : CMethodId) : Act Unit := do
  let s ← get
  let id := s.registry.methodId m
  if !s.checker.methods.contains id then violation (s.registry.methodText m) id.text
  modify fun s => { s with checker := { s.checker with methodsIn := m :: s.checker.methodsIn } }

def checkVariable (g : Setup) (ctx : CtxId) (v : Var) : Act Unit := do
  let s ← get
  let r := s.registry
  let m := v.method
  let isReceiver := (g.program.method? m).any fun d => d.receiver?.isSome && v.slot? = d.receiver?
  if !isReceiver then
    if !s.checker.methods.contains m then violation (g.program.varText v) m.text
    let announced := match r.method? ctx m with
      | some cm => s.checker.methodsIn.contains cm
      | none => false
    if !announced then
      violation (r.pointerText g.program (.var ctx v)) (r.contextText ctx ++ ":" ++ m.text)

/-- Checks a pointer that has grown, which has to be a variable. -/
def checkPointer (g : Setup) (p : PtrId) : Act Unit := do
  match (← get).registry.pointers.get? p with
  | some (.var ctx v) => checkVariable g ctx v
  | _ => throw .noVariable

def check (g : Setup) : Event → Act Unit
  | .method m => modify fun s =>
      { s with checker := { s.checker with methods := m :: s.checker.methods } }
  | .methodIn m => checkMethod m
  | .grown p _ => checkPointer g p
  | _ => pure ()

/-! ### The recorder -/

/-- Writes an event down; a scripted recorder then carries out the operations its script has for the
event, and forgets them. -/
def record (g : Setup) (lead : String) (scripted : Bool) (e : Event) : Act (List Task) := do
  let s ← get
  let text := e.text g.program s.registry
  set (s.write (.event (lead ++ text)))
  if scripted then
    modify fun s => { s with script := s.script.filter fun h => h.1 ≠ text }
    pure ((s.script.filter fun h => h.1 = text).flatMap fun h => h.2.map Task.op)
  else pure []

end Act

/-! ### The profiler -/

def Profile.count (f : Profile) : Event → Profile
  | .method _ => { f with methods := f.methods + 1 }
  | .methodIn _ => { f with methodsIn := f.methodsIn + 1 }
  | .call _ => { f with calls := f.calls + 1 }
  | .unresolved .. => { f with unresolved := f.unresolved + 1 }
  | .initialized _ => { f with initialized := f.initialized + 1 }
  | .grown p delta =>
    { f with deltaTotal := f.deltaTotal + delta.size, grown := p :: f.grown }
  | _ => f

def Act.count (e : Event) : Act Unit :=
  modify fun s => { s with profile := s.profile.count e }

end HeapFlow
