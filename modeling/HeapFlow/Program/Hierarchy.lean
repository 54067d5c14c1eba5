import HeapFlow.Program.Basic

/-!
# The class hierarchy

Three questions are asked of the hierarchy: whether a value of one type may be stored in a variable
of another (`Program.isSubtype`), which method a call reaches at run time for a receiver of a given
class (`Program.dispatch`), and which method a call names (`Program.resolve`).

Every search for a method has one shape, `Program.search`: the class and its superclasses are asked
first, nearest first; if none of them answers, the interfaces are searched depth first in
declaration order, again starting from the class itself.

Walks are bounded by more than the number of classes; in a hierarchy without cycles the bound is
never felt. Loading accepts interfaces that are above themselves. A walk around such a cycle is
meant to go on forever, so the bound is out of reach.
-/

namespace HeapFlow

namespace Program

/-! ### Walking up -/

/-- The class and its superclasses, nearest first, at most `fuel` of them. -/
def chainFrom (p : Program) : (fuel : Nat) → String → List Class
  | 0, _ => []
  | n + 1, c => match p.class? c with
    | none => []
    | some k => k :: (match k.super with | none => [] | some s => p.chainFrom n s)

def chain (p : Program) (c : String) : List Class :=
  p.chainFrom p.classes.length c

/-- How deep a walk may go at least: deeper than there is room for. -/
def outOfReach : Nat := 1000000000000

/-- A bound on the number of classes met on a walk that visits none twice. -/
def depthBound (p : Program) : Nat :=
  outOfReach + p.classes.length + 1

/-- The first answer among the class and its superclasses, else the first among their interfaces,
depth first, nested at most `fuel` deep. -/
def searchFrom {α : Type} (p : Program) (ask : Class → Option α) : (fuel : Nat) → String → Option α
  | 0, _ => none
  | n + 1, c =>
    match (p.chain c).findSome? ask with
    | some a => some a
    | none => (p.chain c).findSome? fun k => k.interfaces.findSome? fun i => p.searchFrom ask n i

/-- The first answer among the class and its superclasses, else the first among their interfaces,
depth first in declaration order. -/
def search {α : Type} (p : Program) (ask : Class → Option α) (c : String) : Option α :=
  p.searchFrom ask p.depthBound c

/-- Whether a walk of fewer than `fuel` steps along superclasses and interfaces leads from `a` to
`b`. -/
def reachesIn (p : Program) : (fuel : Nat) → String → String → Bool
  | 0, _, _ => false
  | n + 1, a, b => a == b || match p.class? a with
    | none => false
    | some k =>
      k.super.any (fun s => p.reachesIn n s b) || k.interfaces.any fun i => p.reachesIn n i b

/-- Whether `b` is `a`, or a superclass or interface of it, directly or not. -/
def reaches (p : Program) (a b : String) : Bool :=
  p.reachesIn p.depthBound a b

/-! ### Subtyping -/

/-- The interfaces that every array type implements, where the program declares them. -/
def arrayInterfaces : List String := ["Cloneable", "Serializable"]

def isArrayInterface (p : Program) (c : String) : Bool :=
  match p.class? c with
  | some k => k.isInterface && arrayInterfaces.contains c
  | none => false

/-- Whether a value of the first type may be stored in a variable of the second. -/
def isSubtype (p : Program) : Ty → Ty → Bool
  | .prim a, t => t == .prim a
  | .null, t => t.isReference
  | .cls a, .cls b => b == objectClass || p.reaches a b
  | .cls _, _ => false
  | .array _, .cls b => b == objectClass || p.isArrayInterface b
  | .array s, .array t =>
    if s.isReference && t.isReference then s == t || p.isSubtype s t else s == t
  | .array _, _ => false

/-! ### Members -/

/-- The field with a name in the class or its nearest superclass that declares one. -/
def lookupField (p : Program) (c name : String) : Option Field :=
  (p.chain c).findSome? fun k => k.field? name

/-- The declared method with a subsignature, abstract or not. -/
def resolve (p : Program) (target : MethodId) : Option Method :=
  p.search (fun k => k.method? target.subsig) target.cls

/-- The class whose methods a receiver of a type has: arrays have those of the root class. -/
def receiverClass? : Ty → Option String
  | .cls c => some c
  | .array _ => some objectClass
  | _ => none

/-- The method with a body that a receiver of a type has under a subsignature. -/
def dispatch (p : Program) (recv : Ty) (subsig : String) : Option Method :=
  (receiverClass? recv).bind fun c => p.search (fun k =>
    match k.method? subsig with
    | some m => if m.isAbstract then none else some m
    | none => none) c

/-- The first method with a name and a number of parameters. -/
def findMethod (p : Program) (c name : String) (arity : Nat) : Option Method :=
  p.search (fun k => k.methods.find? fun m => m.name == name && m.paramTypes.length == arity) c

/-! ### Active uses

A class is initialized when it is first used: by running one of its static methods, allocating an
object or array of it, naming it or its class object as a constant, touching a static field it
declares, or calling a static method that it declares. -/

/-- The class of a type, for an array that of its innermost elements. -/
def classOfType (t : Ty) : List String :=
  match t.base with
  | .cls c => [c]
  | _ => []

def stmtUses (p : Program) : Stmt → List String
  | .new _ t _ => classOfType t
  | .const _ (.cls t) => classOfType (Literal.cls t).type ++ classOfType t
  | .const _ l => classOfType l.type
  | .loadStatic _ f => [f.cls]
  | .storeStatic f _ => [f.cls]
  | .invoke c =>
    if c.kind = .static then
      match p.resolve c.target with
      | some m => [m.id.cls]
      | none => []
    else []
  | _ => []

/-- The classes that running a method uses, in the order of their use. -/
def activeUses (p : Program) (m : Method) : List String :=
  (if m.isStatic then [m.id.cls] else []) ++ m.body.flatMap p.stmtUses

end Program

end HeapFlow
