import HeapFlow.Program.Hierarchy
import HeapFlow.Source.Basic
import HeapFlow.Source.Error
import HeapFlow.Source.Grammar

/-!
# From a source to a program

Loading goes over the classes of a source four times, so that a class may be named before it is
declared: first the class names are declared, then superclasses and interfaces are linked, then
fields and signatures are declared, and last the method bodies are read and their names resolved.
The entry methods are looked up in the end. The first fault stops loading.

Superclass cycles are looked for while linking: when a class has been linked, its chain of
superclasses – some not linked yet, and still below the root class – must not come back to it.
-/

namespace HeapFlow

namespace Source

/-! ### Class names -/

def isPredefined (name : String) : Bool :=
  name == objectClass || name == stringClass || name == classClass

/-- Declares a class by name. A predefined class may be declared once more and keeps its place. -/
def declareClass (declared : List String) (p : Program) (c : ClassSource) :
    Except LoadError Program := do
  if c.name = "" then throw .emptyName
  if declared.contains c.name then throw (.classTwice c.name)
  let flags (k : Class) : Class := { k with
    isInterface := c.isInterface
    isAbstract := c.isAbstract || c.isInterface
    isApplication := !c.isLibrary && !isPredefined c.name }
  match p.class? c.name with
  | some k => pure (p.setClass (flags k))
  | none => pure { p with
      classes := p.classes ++ [flags { name := c.name, super := some objectClass }] }

def declareClasses : (declared : List String) → Program → List ClassSource →
    Except LoadError Program
  | _, p, [] => .ok p
  | declared, p, c :: cs => do
    declareClasses (c.name :: declared) (← declareClass declared p c) cs

/-! ### Superclasses and interfaces -/

variable (p : Program)

/-- The interfaces of a class, all of which must be declared. -/
def interfacesOf (c : ClassSource) : Except LoadError (List String) :=
  c.implements.mapM fun name =>
    match p.class? name with
    | some _ => .ok name
    | none => .error (.unknownInterface c.name name)

/-- The superclass of a class: the written one, else the one it has already. -/
def superOf (c : ClassSource) (current : Option String) :
    Except LoadError (Option String) := do
  if c.superclass = "" then pure current
  else
    if (p.class? c.superclass).isNone then throw (.unknownSuper c.name c.superclass)
    if c.name = objectClass then throw (.rootSuper c.name)
    pure (some c.superclass)

def linkClass (c : ClassSource) : Except LoadError Program := do
  let some k := p.class? c.name | pure p
  let super ← superOf p c k.super
  let interfaces ← interfacesOf p c
  let p := p.setClass { k with super := super, interfaces := k.interfaces ++ interfaces }
  let above := match super with
    | some s => p.chain s
    | none => []
  if above.any fun a => a.name == c.name then throw (.cyclic c.name)
  pure p

/-! ### Fields and signatures -/

def declareField (k : Class) (text : String) : Except LoadError Class := do
  let some (isStatic, t) := Grammar.field? text | throw (.badField k.name text)
  let some type := p.type? t.type | throw (.fieldType k.name t.name t.type)
  if (k.field? t.name).isSome then throw (.fieldTwice k.name t.name)
  pure { k with fields := k.fields ++ [⟨⟨k.name, t.name⟩, type, isStatic⟩] }

def readParam (cls method text : String) : Except LoadError VarDecl := do
  let some t := Grammar.declaration? text | throw (.badParam cls method text)
  let some type := p.type? t.type | throw (.paramType cls method t.name t.type)
  pure ⟨t.name, type⟩

/-- The method that a signature declares, without its body. -/
def readSignature (k : Class) (m : MethodSource) : Except LoadError Method := do
  let some sig := Grammar.signature? m.sig | throw (.badSignature k.name m.sig)
  let some ret := p.type? sig.ret | throw (.returnType k.name sig.name sig.ret)
  let params ← (Grammar.pieces sig.params).mapM (readParam p k.name sig.name)
  let isStatic := sig.modifiers.contains .static
  let header := Method.declare k.name sig.name (params.map (·.type)) ret isStatic
  let first := header.vars.length
  pure { header with
    isAbstract := sig.modifiers.contains .abstract || (k.isInterface && m.body.isEmpty)
    isNative := sig.modifiers.contains .native
    vars := header.vars ++ params
    params := (List.range params.length).map (first + ·) }

def declareMethod (k : Class) (m : MethodSource) : Except LoadError Class := do
  let method ← readSignature p k m
  if (k.method? method.id.subsig).isSome then throw (.methodTwice k.name method.id.subsig)
  pure { k with methods := k.methods ++ [method] }

/-- Declares the fields and then the methods of a class. -/
def declareMembers (c : ClassSource) : Except LoadError Program := do
  let some k := p.class? c.name | pure p
  let k ← c.fields.foldlM (declareField p) k
  let k ← c.methods.foldlM (declareMethod p) k
  pure (p.setClass k)

/-! ### Statements -/

def slotOf (m : Method) (name : String) : Except StmtError Slot :=
  match m.var? name with
  | some v => .ok v
  | none => .error (.unknownVariable name)

def typeNamed (name : String) : Except StmtError Ty :=
  match p.type? name with
  | some t => .ok t
  | none => .error (.unknownType name)

/-- The field that `target.name` means: through a variable, a field of its class; otherwise a static
field of the class named. The variable is the base of an instance field. -/
def fieldAccess (m : Method) (target name : String) :
    Except StmtError (Option Slot × Field) :=
  match m.var? target with
  | some v => match m.varType v with
    | .cls c => match p.lookupField c name with
      | some f => .ok (if f.isStatic then none else some v, f)
      | none => .error (.noField name c)
    | _ => .error (.noFields target)
  | none => match p.class? target with
    | some k => match p.lookupField k.name name with
      | some f => if f.isStatic then .ok (none, f) else .error (.notStatic f.id)
      | none => .error (.noField name k.name)
    | none => .error (.unknownVariable target)

/-- What a call is made on: a receiver with the class of its type, or a class. -/
def callTarget (m : Method) (target : String) :
    Except StmtError (Option Slot × String) :=
  match m.var? target with
  | some v => match m.varType v with
    | .cls c => .ok (some v, c)
    | .array _ => .ok (some v, objectClass)
    | t => .error (.receiverType target t)
  | none => match p.class? target with
    | some k => .ok (none, k.name)
    | none => .error (.unknownVariable target)

/-- The class in front of the method name, if one is written. -/
def qualified (cls : String) : Option String → Except StmtError String
  | none => .ok cls
  | some q => match p.class? q with
    | some k => .ok k.name
    | none => .error (.unknownClass q)

/-- The kind of a call for which none is written: without receiver static; constructors and calls
that name a class special; else by whether the class is an interface. -/
def impliedKind (receiver : Option Slot) (cls : String) (qualifier : Option String)
    (name : String) : CallKind :=
  if receiver.isNone then .static
  else if name == "<init>" || qualifier.isSome then .special
  else match p.class? cls with
    | some k => if k.isInterface then .interface else .virtual
    | none => .virtual

def resolveCall (m : Method) (result : Option String) (kind : Option CallKind)
    (target : String) (qualifier : Option String) (name args : String) :
    Except StmtError Stmt := do
  let result ← result.mapM (slotOf m)
  let (receiver, cls) ← callTarget p m target
  let cls ← qualified p cls qualifier
  let args ← (Grammar.pieces args).mapM fun a => slotOf m (Text.trimmed a)
  let some callee := p.findMethod cls name args.length | throw (.noMethod name args.length cls)
  let kind := kind.getD (impliedKind p receiver cls qualifier name)
  if kind = .static && receiver.isSome then throw (.staticReceiver target)
  if kind ≠ .static && receiver.isNone then throw (.noReceiver kind)
  if (kind = .static) ≠ callee.isStatic then throw (.wrongKind kind callee.id)
  pure (.invoke {
    kind := kind
    target := ⟨cls, callee.id.subsig⟩
    receiver := receiver
    args := args
    result := result })

/-- Resolves an allocation: the dimensions with a bound are allocated at once. -/
def resolveNew (m : Method) (dst cls : String) (bounds : List Bool) :
    Except StmtError Stmt := do
  let x ← slotOf m dst
  let type ← typeNamed p (cls ++ repeated bounds.length "[]")
  let dims := max 1 (bounds.countP id)
  if let .cls c := type then
    if (p.class? c).any fun k => k.isInterface || k.isAbstract then throw (.abstractAlloc c)
  pure (.new x type dims)

def resolveForm (m : Method) : Grammar.Form → Except StmtError Stmt
  | .ret none => .ok (.ret none)
  | .ret (some v) => do pure (.ret (some (← slotOf m v)))
  | .call result kind target qualifier name args =>
    resolveCall p m result kind target qualifier name args
  | .new dst cls bounds => resolveNew p m dst cls bounds
  | .str dst quoted => do
    let x ← slotOf m dst
    let some bytes := Text.unquote quoted | throw .badString
    pure (.const x (.str bytes))
  | .cls dst type => do
    let x ← slotOf m dst
    pure (.const x (.cls (← typeNamed p type)))
  | .null dst => do pure (.const (← slotOf m dst) .null)
  | .int dst digits => do
    let x ← slotOf m dst
    match Text.readInt64 digits.toList with
    | .ok n => pure (.const x (.int n))
    | .error e => throw (.badInt digits e)
  | .cast dst type src => do
    let x ← slotOf m dst
    let y ← slotOf m src
    pure (.cast x (← typeNamed p type) y)
  | .loadElem dst base => do
    let x ← slotOf m dst
    let y ← slotOf m base
    if !(m.varType y).isArray then throw (.notArray base)
    pure (.loadElem x y)
  | .storeElem base src => do
    let x ← slotOf m base
    let y ← slotOf m src
    if !(m.varType x).isArray then throw (.notArray base)
    pure (.storeElem x y)
  | .loadField dst base field => do
    let x ← slotOf m dst
    match ← fieldAccess p m base field with
    | (some b, f) => pure (.load x b f.id)
    | (none, f) => pure (.loadStatic x f.id)
  | .storeField base field src => do
    let (b, f) ← fieldAccess p m base field
    let y ← slotOf m src
    match b with
    | some b => pure (.store b f.id y)
    | none => pure (.storeStatic f.id y)
  | .copy dst src => do
    let x ← slotOf m dst
    pure (.copy x (← slotOf m src))

/-- Reads a statement, given without the white space around it. -/
def readStmt (m : Method) (text : String) : Except StmtError Stmt :=
  match Grammar.Form.read text.toList with
  | some form => resolveForm p m form
  | none => .error .unrecognized

/-! ### Bodies -/

def declareLocal (m : Method) (text : String) : Except LoadError Method := do
  let some t := Grammar.declaration? text | throw (.badLocal m.id text)
  let some type := p.type? t.type | throw (.localType m.id t.name t.type)
  if (m.var? t.name).isSome then throw (.varTwice m.id t.name)
  pure (m.addVar t.name type)

def readBodyStmt (m : Method) (entry : String × Nat) : Except LoadError Stmt :=
  let text := Text.trimmed entry.1
  match readStmt p m text with
  | .ok s => .ok s
  | .error e => .error (.stmt m.id entry.2 text e)

/-- Reads the local variables and the statements of a method. -/
def readBody (m : Method) (source : MethodSource) : Except LoadError Method := do
  let m ← source.locals.foldlM (declareLocal p) m
  if (m.isAbstract || m.isNative) && !source.body.isEmpty then throw (.noBody m.id)
  let body ← source.body.zipIdx.mapM (readBodyStmt p m)
  pure (m.withBody body)

/-- Reads the bodies of the methods of a class, given with their sources. -/
def readBodies (sources : List ClassSource) (k : Class) : Except LoadError Class := do
  let written := match sources.find? fun c => c.name == k.name with
    | some c => c.methods
    | none => []
  let methods ← (k.methods.zip written).mapM fun (m, source) => readBody p m source
  pure { k with methods := methods }

/-! ### Entry methods -/

/-- The method that an entry names, as `Class.name` or `Class.subsignature`. -/
def lookupEntry (text : String) : Except EntryError MethodId := do
  let some (cls, member) := Text.cutAt? '.' text.toList | throw .noDot
  let cls := String.ofList cls
  let name := String.ofList member
  let some k := p.class? cls | throw (.unknownClass cls)
  if member.contains '(' then
    match k.method? name with
    | some m => pure m.id
    | none => throw (.noMethod name cls)
  else
    match k.methods.filter fun m => m.name == name with
    | [] => throw (.noMethod name cls)
    | [m] => pure m.id
    | _ => throw (.overloaded name cls)

def lookupEntries (wrap : String → EntryError → LoadError) (texts : List String) :
    Except LoadError (List MethodId) :=
  texts.mapM fun t => match lookupEntry p t with
    | .ok m => .ok m
    | .error e => .error (wrap t e)

end Source

/-! ### Loading -/

namespace Program

/-- **Loads a program**: declares its classes, links them, declares their members, reads the bodies
and looks up the entry methods. -/
def load (source : ProgramSource) : Except LoadError Program := do
  let p ← Source.declareClasses [] Program.base source.classes
  let p ← source.classes.foldlM Source.linkClass p
  let p ← source.classes.foldlM Source.declareMembers p
  let classes ← p.classes.mapM (Source.readBodies p source.classes)
  let p := { p with classes := classes }
  let entries ← Source.lookupEntries p .entry source.entries
  let implicitEntries ← Source.lookupEntries p .implicitEntry source.implicitEntries
  pure { p with entries := entries, implicitEntries := implicitEntries }

end Program

/-- Why a text is no program. -/
inductive ReadError where
  /-- It is no document of the required form. -/
  | document
  /-- The document is no acceptable program. -/
  | load (cause : LoadError)
deriving DecidableEq, Repr

/-- How an error is worded, if a text that is no document is said to be `malformed`. -/
def ReadError.message (malformed : String) : ReadError → String
  | document => "parsing yaml: " ++ malformed
  | load e => e.message

def Program.ofText (text : String) : Except ReadError Program :=
  match ProgramSource.ofText text with
  | .error _ => .error .document
  | .ok source => match Program.load source with
    | .ok p => .ok p
    | .error e => .error (.load e)

end HeapFlow
