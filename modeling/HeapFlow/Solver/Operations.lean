import HeapFlow.Solver.Monitors

/-!
# Carrying out operations

An operation of a script first enters what it speaks of into the registry – contexts before objects,
objects before pointers – and then acts. What it leaves to do is done before its answer is written
down.
-/

namespace HeapFlow

namespace Act

/-! ### Entering descriptions -/

variable (g : Setup)

def enterObject (o : ObjectSpec) : Act CObjId := do
  let c ← register (·.context o.ctx)
  match o.request.ask g.program with
  | .error e => throw (.heap e)
  | .ok a =>
    let i ← register (·.request g.merging a)
    register (·.object c i)

/-- Enters what a pointer speaks of, but not the pointer. -/
def enterParts : PointerSpec → Act Pointer
  | .var ctx v => do pure (.var (← register (·.context ctx)) v)
  | .field o f => do pure (.field (← enterObject g o) f)
  | .elems o => do pure (.elems (← enterObject g o))
  | .static f => pure (.static f)

def enterPointer (p : PointerSpec) : Act PtrId := do
  pointer g (← enterParts g p)

def enterMethod (m : MethodSpec) : Act CMethodId := do
  let c ← register (·.context m.ctx)
  register (·.method c m.method)

def enterTransfer : TransferSpec → Act Transfer
  | .all => pure .all
  | .ofType t => pure (.ofType t)
  | .least => pure .least
  | .nothing => pure .nothing
  | .always o => do pure (.always (← enterObject g o))
  | .custom key => pure (.custom key)

/-! ### Operations -/

/-- Acts on an operation: what it leaves to do, and its answer. -/
def operate (op : Op) : Act (List Task × OpAnswer) := do
  let done := OpAnswer.done op.name
  match op with
  | .addObjects p objs =>
    let x ← enterParts g p
    let objs ← objs.mapM (enterObject g)
    addObjects (← pointer g x) (OrderedSet.ofList objs)
    pure ([], done)
  | .addFlow src dst kind t =>
    let t ← enterTransfer g t
    let src ← enterPointer g src
    addFlow g src (← enterPointer g dst) kind t
    pure ([], done)
  | .addCall kind caller index callee =>
    let c ← register (·.context caller.ctx)
    let s ← register (·.site c (.body caller.method index))
    addCall ⟨kind, s, ← enterMethod callee⟩
    pure ([], done)
  | .reach m => pure ([.reach (← enterMethod m)], done)
  | .entry m =>
    let tasks ← entry m
    let r := (← get).registry
    pure (tasks, .text (r.contextText Contexts.emptyCtx ++ ":" ++ m.text))
  | .init c => pure ([.initClass c], done)
  | .look p =>
    let i ← enterPointer g p
    let s ← get
    pure ([], .texts ((s.pointsTo i).toList.map s.registry.objText))
  | .result =>
    let s ← get
    if s.snapshot.isSome then pure ([], .text g.policy.name) else throw (.unfinished s.work.size)
  | .solve => throw .startedTwice
  | .checkMethod m =>
    checkMethod (← enterMethod m)
    pure ([], done)
  | .checkPointer p =>
    checkPointer g (← enterPointer g p)
    pure ([], done)

/-- Carries out an operation. If it fails, the failure is its answer. -/
def carryOut (op : Op) : Act (List Task) := fun s =>
  match operate g op s with
  | .ok (tasks, a) s => .ok (tasks ++ [.answer a]) s
  | .error e s => .ok [] (s.write (.failed e))

def answer : OpAnswer → Act Unit
  | .done name => modify fun s => s.write (.done name s.registry.pointers.size
      s.registry.objects.size s.registry.contexts.size s.flow.size s.calls.edges.length)
  | .text t => modify (·.write (.text t))
  | .texts l => modify (·.write (.texts l))

end Act

end HeapFlow
