import HeapFlow.Collection.Catalog
import HeapFlow.Program.Statement

/-!
# Classes, methods, programs

A program is a closed world of classes in declaration order, beginning with the three predefined
ones, together with its entry methods. A class is named by its name, a method by its class and
subsignature, a field by its class and name, a variable by its method and position.

A method gets its statements one by one (`Method.addStmt`), and what it does with its variables is
recorded on the way (`BodyIndex`): the field accesses, element accesses and calls that go through
each of them, and which of them are returned. The same can be read off the body.
-/

namespace HeapFlow

def total (ns : List Nat) : Nat :=
  ns.foldr (· + ·) 0

structure VarDecl where
  name : String
  type : Ty
deriving DecidableEq, Repr, Inhabited

structure Field where
  id : FieldId
  type : Ty
  /-- Whether there is one field for the class rather than one for each object. -/
  isStatic : Bool
deriving DecidableEq, Repr, Inhabited

/-- What a body does with its variables, as its statements are added. -/
structure BodyIndex where
  /-- The method and the position given to each statement. -/
  places : List (MethodId × Nat) := []
  /-- The positions of the statements that go through each variable. -/
  uses : List ((Use × Slot) × List Nat) := []
  returned : List Slot := []
deriving DecidableEq, Repr, Inhabited

structure Method where
  id : MethodId
  name : String
  paramTypes : List Ty
  ret : Ty
  isStatic : Bool
  /-- Whether the method has no body because subclasses provide it. -/
  isAbstract : Bool := false
  /-- Whether the method has no body because the runtime provides it. -/
  isNative : Bool := false
  /-- The variables: the receiver first if there is one, then parameters and locals. -/
  vars : List VarDecl := []
  params : List Slot := []
  body : List Stmt := []
  index : BodyIndex := {}
deriving DecidableEq, Repr, Inhabited

/-- The subsignature of a method name with parameter types. -/
def subsignature (name : String) (params : List Ty) : String :=
  name ++ "(" ++ ",".intercalate (params.map Ty.name) ++ ")"

namespace Method

/-- The method without parameters, variables and body; an instance method has its receiver `this`.
-/
def declare (cls name : String) (paramTypes : List Ty) (ret : Ty) (isStatic : Bool) : Method where
  id := ⟨cls, subsignature name paramTypes⟩
  name := name
  paramTypes := paramTypes
  ret := ret
  isStatic := isStatic
  vars := if isStatic then [] else [⟨"this", .cls cls⟩]

variable (m : Method)

def varName (v : Slot) : String :=
  match m.vars[v]? with
  | some d => d.name
  | none => ""

def varType (v : Slot) : Ty :=
  match m.vars[v]? with
  | some d => d.type
  | none => .null

/-- The position of the first variable with a name. -/
def var? (name : String) : Option Slot :=
  m.vars.findIdx? fun d => d.name == name

def receiver? : Option Slot :=
  if m.isStatic then none else some 0

def addVar (name : String) (type : Ty) : Method :=
  { m with vars := m.vars ++ [⟨name, type⟩] }

def stmtText (s : Stmt) : String :=
  s.text m.varName

/-! ### What the body does with a variable -/

/-- Adds a statement to the body, gives it its position and enters it for the variable that it goes
through. -/
def addStmt (s : Stmt) : Method :=
  let i := m.body.length
  { m with
    body := m.body ++ [s]
    index := {
      places := m.index.places ++ [(m.id, i)]
      uses := match s.use? with
        | some u => enlist u i m.index.uses
        | none => m.index.uses
      returned := m.index.returned ++ s.returned?.toList } }

/-- Gives a method its body, statement by statement. -/
def withBody (body : List Stmt) : Method :=
  body.foldl addStmt { m with body := [], index := {} }

theorem foldl_addStmt (l : List Stmt) : l.foldl addStmt m =
    { m with body := m.body ++ l, index := (l.foldl addStmt m).index } := by
  induction l generalizing m with
  | nil => simp
  | cons s l ih =>
    rw [List.foldl_cons, ih]
    simp [addStmt]

/-- Nothing but the body and its index is new. -/
theorem withBody_eq (l : List Stmt) :
    m.withBody l = { m with body := l, index := (m.withBody l).index } :=
  foldl_addStmt _ l

/-- The positions of the statements that go through a variable in some way, as recorded. -/
def usesAs (u : Use) (v : Slot) : List Nat :=
  membersIn m.index.uses (u, v)

/-- The body with the position of every statement. -/
def indexedBody : List (Nat × Stmt) :=
  m.body.zipIdx.map fun (s, i) => (i, s)

/-- The field stores `v.f = x`: position, field and stored variable. -/
def storesThrough (v : Slot) : List (Nat × FieldId × Slot) :=
  m.indexedBody.filterMap fun
    | (i, .store b f x) => if b = v then some (i, f, x) else none
    | _ => none

/-- The field loads `y = v.f`: position, field and loaded variable. -/
def loadsThrough (v : Slot) : List (Nat × FieldId × Slot) :=
  m.indexedBody.filterMap fun
    | (i, .load y b f) => if b = v then some (i, f, y) else none
    | _ => none

/-- The element stores `v[*] = x`: position and stored variable. -/
def elemStoresThrough (v : Slot) : List (Nat × Slot) :=
  m.indexedBody.filterMap fun
    | (i, .storeElem b x) => if b = v then some (i, x) else none
    | _ => none

/-- The element loads `y = v[*]`: position and loaded variable. -/
def elemLoadsThrough (v : Slot) : List (Nat × Slot) :=
  m.indexedBody.filterMap fun
    | (i, .loadElem y b) => if b = v then some (i, y) else none
    | _ => none

/-- The calls with receiver `v`: position and call. -/
def callsOn (v : Slot) : List (Nat × Call) :=
  m.indexedBody.filterMap fun
    | (i, .invoke c) => if c.receiver = some v then some (i, c) else none
    | _ => none

/-- The positions of the statements that go through `v`, as recorded: field stores, field loads,
element stores, element loads, calls. -/
def usesOf (v : Slot) : List Nat :=
  [Use.store, .load, .elemStore, .elemLoad, .call].flatMap (m.usesAs · v)

/-- The returned variables, one for each return statement with a value. -/
def returned : List Slot :=
  m.body.filterMap Stmt.returned?

/-- The number of allocations among the first `i` statements. -/
def allocsBefore (i : Nat) : Nat :=
  (m.body.take i).countP Stmt.isNew

end Method

structure Class where
  name : String
  super : Option String := none
  interfaces : List String := []
  isInterface : Bool := false
  /-- Whether it has no objects of its own. -/
  isAbstract : Bool := false
  /-- Whether it belongs to the application rather than to a library. -/
  isApplication : Bool := true
  fields : List Field := []
  methods : List Method := []
deriving DecidableEq, Repr, Inhabited

namespace Class

def field? (c : Class) (name : String) : Option Field :=
  c.fields.find? fun f => f.id.name == name

def method? (c : Class) (subsig : String) : Option Method :=
  c.methods.find? fun m => m.id.subsig == subsig

def clinitSubsig : String := "<clinit>()"

def clinit? (c : Class) : Option Method :=
  c.method? clinitSubsig

end Class

structure Program where
  /-- The classes in declaration order, the predefined ones first. -/
  classes : List Class
  entries : List MethodId := []
  /-- The methods that the runtime calls of its own accord. -/
  implicitEntries : List MethodId := []
deriving DecidableEq, Repr, Inhabited

namespace Program

/-- The program that holds only the predefined classes: the root class, and below it the classes of
strings and of class objects. -/
def base : Program where
  classes := [
    { name := objectClass, isApplication := false },
    { name := stringClass, super := some objectClass, isApplication := false },
    { name := classClass, super := some objectClass, isApplication := false }]

def class? (p : Program) (name : String) : Option Class :=
  p.classes.find? fun c => c.name == name

def method? (p : Program) (m : MethodId) : Option Method :=
  (p.class? m.cls).bind fun c => c.method? m.subsig

def field? (p : Program) (f : FieldId) : Option Field :=
  (p.class? f.cls).bind fun c => c.field? f.name

def isApplication (p : Program) (m : MethodId) : Bool :=
  match p.class? m.cls with
  | some c => c.isApplication
  | none => false

/-- The type with a written name, if its innermost name is primitive or a class of the program. -/
def type? (p : Program) (name : String) : Option Ty :=
  let (n, rest) := stripBrackets name.toList.reverse
  let inner := String.ofList rest.reverse
  match Prim.ofName? inner with
  | some prim => some ((Ty.prim prim).arrays n)
  | none => (p.class? inner).map fun c => (Ty.cls c.name).arrays n

def setClass (p : Program) (c : Class) : Program :=
  { p with classes := p.classes.map fun k => if k.name = c.name then c else k }

/-- Replaces the method of the same class and subsignature. -/
def setMethod (p : Program) (m : Method) : Program :=
  match p.class? m.id.cls with
  | some c => p.setClass { c with methods := c.methods.map fun k => if k.id = m.id then m else k }
  | none => p

end Program

/-! ### Variables and call sites of a program -/

/-- A variable of a method, or a temporary that a model of the analysis puts beside them. -/
inductive Var where
  /-- The variable at a position of the method's variable list. -/
  | declared (method : MethodId) (slot : Slot)
  /-- The temporary of the `n`-th element copy found, owned by the copying method. -/
  | copyTemp (method : MethodId) (n : Nat)
deriving DecidableEq, Repr, Inhabited

namespace Var

def method : Var → MethodId
  | declared m _ => m
  | copyTemp m _ => m

def slot? : Var → Option Slot
  | declared _ s => some s
  | copyTemp _ _ => none

end Var

/-- A place calls are made from. -/
inductive CallSite where
  /-- The call statement at a position of a body. -/
  | body (method : MethodId) (index : Nat)
  /-- The registration with the finalizer made by the allocation at a position of a body. -/
  | register (method : MethodId) (index : Nat)
  /-- The call of the thread body made when a thread is started. -/
  | threadRun
deriving DecidableEq, Repr, Inhabited

def threadStart : MethodId := ⟨"Thread", "start()"⟩

def threadRun : MethodId := ⟨"Thread", "run()"⟩

def threadCurrent : MethodId := ⟨"Thread", "currentThread()"⟩

/-- The finalizer every object has. -/
def rootFinalize : MethodId := ⟨objectClass, "finalize()"⟩

/-- The method objects with a finalizer of their own are registered with. -/
def finalizerRegister : MethodId := ⟨"Finalizer", "register(Object)"⟩

def arrayCopy : MethodId := ⟨"System", "arraycopy(Object,int,Object,int,int)"⟩

namespace CallSite

def method : CallSite → MethodId
  | body m _ => m
  | register m _ => m
  | threadRun => threadStart

/-- The label of a call that is not a statement of its method. -/
def modelLabel (method target : MethodId) : String :=
  method.text ++ "[" ++ target.name ++ "]"

/-- The label of a call site: its method with the position of the statement, or with the name of the
called method if the call is not a statement. -/
def label : CallSite → String
  | body m i => m.text ++ "[" ++ toString i ++ "]"
  | register m _ => modelLabel m finalizerRegister
  | threadRun => modelLabel threadStart HeapFlow.threadRun

end CallSite

def varLabel (m : MethodId) (name : String) : String :=
  m.text ++ "/" ++ name

namespace Program

def varName (p : Program) : Var → String
  | .declared m s => match p.method? m with
    | some d => d.varName s
    | none => ""
  | .copyTemp _ n => "%arraycopy-temp" ++ toString n

/-- The declared type of a variable; temporaries hold any object. -/
def varType (p : Program) : Var → Ty
  | .declared m s => match p.method? m with
    | some d => d.varType s
    | none => .null
  | .copyTemp _ _ => .cls objectClass

def varText (p : Program) (v : Var) : String :=
  varLabel v.method (p.varName v)

def holdsObjects (p : Program) (v : Var) : Bool :=
  (p.varType v).holdsObjects

def stmt? (p : Program) (m : MethodId) (i : Nat) : Option Stmt :=
  (p.method? m).bind fun d => d.body[i]?

def call? (p : Program) : CallSite → Option Call
  | .body m i => (p.stmt? m i).bind Stmt.call?
  | .register m i => match p.stmt? m i with
    | some (.new dst _ _) => some { kind := .static, target := finalizerRegister, args := [dst] }
    | _ => none
  | .threadRun => some { kind := .other, target := threadRun, receiver := some 0 }

end Program

end HeapFlow
