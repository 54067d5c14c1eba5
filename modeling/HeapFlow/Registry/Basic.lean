import HeapFlow.Collection.Catalog
import HeapFlow.Registry.Context

/-!
# The registry

An analysis speaks of objects, methods and call sites *in a context*, and of *pointers*: the places
that hold objects. The registry numbers all of them in the order in which they turn up. A thing
asked for again has the number it was given, so things can be compared by their numbers.

Three places do not exist: an instance field of an object that is really static, a static field that
is really an instance field, and the elements of an object that is no array. Asking for one of them
is refused (`PointerError`).
-/

namespace HeapFlow

/-- Something in a context. -/
structure InCtx (α : Type) where
  ctx : CtxId
  item : α
deriving DecidableEq, Repr, Inhabited

/-- Things in contexts are put together by what they are without the context. -/
def InCtx.item? {α : Type} (k : InCtx α) : Option α :=
  some k.item

abbrev CObjId := Nat

abbrev CMethodId := Nat

abbrev CSiteId := Nat

abbrev PtrId := Nat

/-- A place that holds objects. -/
inductive Pointer where
  | var (ctx : CtxId) (v : Var)
  | field (base : CObjId) (f : FieldId)
  /-- The elements of an array object, all of them together. -/
  | elems (array : CObjId)
  | static (f : FieldId)
deriving DecidableEq, Repr, Inhabited

namespace Pointer

def kindText : Nat → String
  | 0 => "var"
  | 1 => "instance-field"
  | 2 => "array-index"
  | 3 => "static-field"
  | n => "PointerKind(" ++ toString n ++ ")"

def var? : Pointer → Option Var
  | var _ v => some v
  | _ => none

end Pointer

/-- A description of a pointer by all its possible parts. Parts that a kind does not use must be
left out, and then the base is `-1` for a variable or static field and the context is the empty one
for all but a variable. -/
structure PointerParts where
  kind : Nat
  ctx : CtxId := Contexts.emptyCtx
  var : Option Var := none
  base : Int := 0
  field : Option FieldId := none

/-- The description of a pointer. -/
def Pointer.parts : Pointer → PointerParts
  | var c v => { kind := 0, ctx := c, var := some v, base := -1 }
  | field o f => { kind := 1, base := o, field := some f }
  | elems o => { kind := 2, base := o }
  | static f => { kind := 3, base := -1, field := some f }

/-- The pointer that a description means. -/
def PointerParts.pointer? (d : PointerParts) : Option Pointer :=
  match d.kind, d.var, d.field with
  | 0, some v, none => if d.base = -1 then some (.var d.ctx v) else none
  | 1, none, some f =>
    if d.ctx = Contexts.emptyCtx ∧ 0 ≤ d.base then some (.field d.base.toNat f) else none
  | 2, none, none =>
    if d.ctx = Contexts.emptyCtx ∧ 0 ≤ d.base then some (.elems d.base.toNat) else none
  | 3, none, some f =>
    if d.ctx = Contexts.emptyCtx ∧ d.base = -1 then some (.static f) else none
  | _, _, _ => none

inductive PointerError where
  | staticField (field : FieldId)
  | instanceField (field : FieldId)
  | noArray (object : String)
deriving DecidableEq, Repr

def PointerError.message : PointerError → String
  | staticField f => "instance field pointer for static field " ++ f.text
  | instanceField f => "static field pointer for instance field " ++ f.text
  | noArray o => "array index of non-array object " ++ o

/-- The things seen so far. -/
structure Registry where
  heap : Heap := {}
  contexts : Contexts := Contexts.start
  /-- The objects in contexts, listed by abstract object. -/
  objects : Catalog (InCtx.item? (α := ObjId)) := Catalog.empty
  /-- The pointers, those for variables listed by variable. -/
  pointers : Catalog Pointer.var? := Catalog.empty
  methods : Table (InCtx MethodId) := Table.empty
  sites : Table (InCtx CallSite) := Table.empty

namespace Registry

/-! ### Abstract objects and contexts -/

def request (g : Merging) (r : Registry) (a : Ask) : ObjId × Registry :=
  let (i, h) := r.heap.request g a
  (i, { r with heap := h })

variable (r : Registry)

def context (es : List Elem) : CtxId × Registry :=
  let (c, t) := r.contexts.make es
  (c, { r with contexts := t })

/-- The context of the `k` youngest elements of `c` followed by `e`. -/
def append (c : CtxId) (e : Elem) (k : Int) : CtxId × Registry :=
  let (c, t) := r.contexts.append c e k
  (c, { r with contexts := t })

/-- The context of the `k` youngest elements of `c`. -/
def last (c : CtxId) (k : Int) : CtxId × Registry :=
  let (c, t) := r.contexts.last c k
  (c, { r with contexts := t })

def contextText (c : CtxId) : String :=
  r.contexts.text r.heap c

/-! ### Objects in contexts -/

def object (ctx : CtxId) (o : ObjId) : CObjId × Registry :=
  let (i, t) := r.objects.intern ⟨ctx, o⟩
  (i, { r with objects := t })

def obj? (o : CObjId) : Option Obj :=
  (r.objects.get? o).bind fun k => r.heap.get? k.item

def objId (o : CObjId) : ObjId :=
  match r.objects.get? o with
  | some k => k.item
  | none => 0

def objContext (o : CObjId) : CtxId :=
  match r.objects.get? o with
  | some k => k.ctx
  | none => Contexts.emptyCtx

def objType (o : CObjId) : Ty :=
  match r.obj? o with
  | some x => x.type
  | none => .null

/-- The instances of an abstract object, in the order in which they turned up. -/
def instancesOf (o : ObjId) : List CObjId :=
  r.objects.members o

def objText (o : CObjId) : String :=
  match r.objects.get? o with
  | some k => r.contextText k.ctx ++ ":" ++ (match r.heap.get? k.item with
    | some x => x.label
    | none => "")
  | none => ""

/-- How a receiver is shown, if there is one. -/
def receiverText : Option CObjId → String
  | some o => r.objText o
  | none => "<none>"

/-! ### Methods and call sites in contexts -/

def method (ctx : CtxId) (m : MethodId) : CMethodId × Registry :=
  let (i, t) := r.methods.intern ⟨ctx, m⟩
  (i, { r with methods := t })

/-- The number of a method in a context that has turned up before. -/
def method? (ctx : CtxId) (m : MethodId) : Option CMethodId :=
  r.methods.find? ⟨ctx, m⟩

def methodId (m : CMethodId) : MethodId :=
  match r.methods.get? m with
  | some k => k.item
  | none => ⟨"", ""⟩

def methodContext (m : CMethodId) : CtxId :=
  match r.methods.get? m with
  | some k => k.ctx
  | none => Contexts.emptyCtx

def methodText (m : CMethodId) : String :=
  r.contextText (r.methodContext m) ++ ":" ++ (r.methodId m).text

def site (ctx : CtxId) (s : CallSite) : CSiteId × Registry :=
  let (i, t) := r.sites.intern ⟨ctx, s⟩
  (i, { r with sites := t })

def callSite (s : CSiteId) : CallSite :=
  match r.sites.get? s with
  | some k => k.item
  | none => .threadRun

def siteContext (s : CSiteId) : CtxId :=
  match r.sites.get? s with
  | some k => k.ctx
  | none => Contexts.emptyCtx

def siteText (s : CSiteId) : String :=
  r.contextText (r.siteContext s) ++ ":" ++ (r.callSite s).label

/-! ### Pointers -/

def pointer (p : Pointer) : PtrId × Registry :=
  let (i, t) := r.pointers.intern p
  (i, { r with pointers := t })

/-- The number of a pointer that has turned up before. -/
def pointer? (p : Pointer) : Option PtrId :=
  r.pointers.find? p

/-- The number of the pointer of a description, if it has turned up before. -/
def lookup (d : PointerParts) : Option PtrId :=
  d.pointer?.bind r.pointer?

def info? (p : PtrId) : Option PointerParts :=
  (r.pointers.get? p).map Pointer.parts

def admits (p : Program) : Pointer → Except PointerError Unit
  | .var _ _ => .ok ()
  | .field _ f => if (p.field? f).any (·.isStatic) then .error (.staticField f) else .ok ()
  | .elems a => if (r.objType a).isArray then .ok () else .error (.noArray (r.objText a))
  | .static f => if (p.field? f).any (·.isStatic) then .ok () else .error (.instanceField f)

/-- The declared type of what a pointer stands for. -/
def pointerType (p : Program) : Pointer → Ty
  | .var _ v => p.varType v
  | .field _ f => match p.field? f with
    | some d => d.type
    | none => .null
  | .elems a => (r.objType a).elem?.getD .null
  | .static f => match p.field? f with
    | some d => d.type
    | none => .null

def pointerText (p : Program) : Pointer → String
  | .var c v => r.contextText c ++ ":" ++ p.varText v
  | .field o f => r.objText o ++ "." ++ f.name
  | .elems o => r.objText o ++ "[*]"
  | .static f => f.text

/-- The pointers of a variable, in the order in which they turned up. -/
def pointersOf (v : Var) : List PtrId :=
  r.pointers.members v

end Registry

end HeapFlow
