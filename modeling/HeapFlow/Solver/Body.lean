import HeapFlow.Solver.Facts

/-!
# Method bodies

When a method becomes reachable in a context, its statements are turned into facts one by one.
Statements that go through a variable – field and element accesses, calls with a receiver – have to
wait until the variable holds objects; they are the matter of `HeapFlow.Solver.Growth`.

| statement | fact |
|---|---|
| allocation, constant | an object for the variable |
| copy, cast, static field access | a flow edge |
| static call | a call edge |

An allocation of several dimensions makes one object for each of them, each holding the next. An
allocation of a class with a finalizer of its own is also a call that registers the object.
-/

namespace HeapFlow

namespace Program

/-- Whether the program has both methods that make finalizers work. -/
def hasFinalizers (p : Program) : Bool :=
  (p.method? rootFinalize).isSome && (p.method? finalizerRegister).isSome

/-- Whether objects of a type have to be registered with the finalizer. -/
def needsFinalizer (p : Program) : Ty → Bool
  | .cls c => p.hasFinalizers &&
      (p.dispatch (.cls c) rootFinalize.subsig).map (·.id) != some rootFinalize
  | _ => false

end Program

def innerArrayDesc : String := "MultiArrayObj"

namespace Act

/-- The objects of the inner arrays of an allocation, one for each dimension after the first. -/
def innerArrays (g : Merging) (m : MethodId) (outer : ObjId) : (n : Nat) → Ty → Act (List ObjId)
  | 0, _ => pure []
  | n + 1, t => match t.elem? with
    | some (.array u) => do
      let o ← register (·.request g (.mock innerArrayDesc (.object outer) (.array u) (some m)))
      pure (o :: (← innerArrays g m outer n (.array u)))
    | _ => throw (.dimensions t)

/-- Lets each array hold the next one. -/
def chainArrays (g : Setup) (m : CMethodId) : (array : CObjId) → List ObjId → Act Unit
  | _, [] => pure ()
  | array, o :: rest => do
    let inner ← allocate g m o
    addObjects (← pointer g (.elems array)) (OrderedSet.singleton inner)
    chainArrays g m inner rest

/-- The facts of a static call: a call edge, or the news that there is no target. -/
def staticCall (g : Setup) (ctx : CtxId) (site : CallSite) (target : MethodId) :
    Act (List Task) := do
  let unresolved := [Task.notify (.unresolved none ctx site) g.observers]
  match g.program.resolve target with
  | none => pure unresolved
  | some callee =>
    if callee.isAbstract || !callee.isStatic then pure unresolved
    else
      let s ← register (·.site ctx site)
      let c ← register fun r => g.policy.staticContext r s
      let m ← register (·.method c callee.id)
      addCall ⟨.static, s, m⟩
      pure []

def allocation (g : Setup) (m : CMethodId) (ctx : CtxId) (d : Method) (index : Nat) (dst : Slot)
    (type : Ty) (dims : Nat) : Act (List Task) := do
  let o ← register (·.request g.merging (.alloc d index type))
  let array ← allocate g m o
  addToVar ctx (.declared d.id dst) array
  if 1 < dims then
    chainArrays g m array (← innerArrays g.merging d.id o (dims - 1) type)
  if g.program.needsFinalizer type then
    let site := CallSite.register d.id index
    setContainer (← register (·.site ctx site)) m
    staticCall g ctx site finalizerRegister
  else pure []

/-- The facts of a constant; only strings and class objects are objects. -/
def constant (g : Setup) (m : CMethodId) (ctx : CtxId) (dst : Var) (value : Literal) :
    Act Unit := do
  match g.merging.constant? value with
  | none => pure ()
  | some _ =>
    let o ← register (·.request g.merging (.constant value))
    addToVar ctx dst (← allocate g m o)

def enact (g : Setup) (m : CMethodId) (d : Method) (index : Nat) (stmt : Stmt) :
    Act (List Task) := do
  let ctx := (← get).registry.methodContext m
  let v (x : Slot) : Var := .declared d.id x
  let holds (x : Slot) : Bool := (d.varType x).holdsObjects
  match stmt with
  | .new dst type dims => allocation g m ctx d index dst type dims
  | .const dst value =>
    constant g m ctx (v dst) value
    pure []
  | .copy dst x =>
    if holds x then
      let src ← variablePtr ctx (v x)
      addFlow g src (← variablePtr ctx (v dst)) .assign .all
    pure []
  | .cast dst type x =>
    if holds x then
      let src ← variablePtr ctx (v x)
      addFlow g src (← variablePtr ctx (v dst)) .cast (.ofType type)
    pure []
  | .loadStatic dst f =>
    if holds dst then
      let src ← pointer g (.static f)
      addFlow g src (← variablePtr ctx (v dst)) .loadStatic .all
    pure []
  | .storeStatic f x =>
    if holds x then
      let src ← variablePtr ctx (v x)
      addFlow g src (← pointer g (.static f)) .storeStatic .all
    pure []
  | .invoke c =>
    let site := CallSite.body d.id index
    setContainer (← register (·.site ctx site)) m
    if c.kind = .static then staticCall g ctx site c.target else pure []
  | .load .. => pure []
  | .store .. => pure []
  | .loadElem .. => pure []
  | .storeElem .. => pure []
  | .ret _ => pure []

end Act

end HeapFlow
