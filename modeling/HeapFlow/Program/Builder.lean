import HeapFlow.Program.Hierarchy

/-!
# Building a program by hand

A program can be put together declaration by declaration. A declaration that would clash with an
earlier one is refused, and the program stays as it was.

While a program is being built its hierarchy changes, and the answers to questions about subtypes
and dispatch are remembered from the first time they are asked for; `Workbench` pairs the program
with those answers.
-/

namespace HeapFlow

/-- Why a declaration is refused. -/
inductive DeclError where
  | classTwice (name : String)
  | fieldTwice (field : FieldId)
  | methodTwice (method : MethodId)
  /-- Every parameter of the signature has a name already. -/
  | tooManyParams (method : MethodId)
deriving DecidableEq, Repr

def DeclError.message : DeclError → String
  | classTwice n => "class " ++ n ++ " declared twice"
  | fieldTwice f => "field " ++ f.text ++ " declared twice"
  | methodTwice m => "method " ++ m.text ++ " declared twice"
  | tooManyParams m => m.text ++ ": too many parameters"

namespace Method

/-- Names the next parameter of the signature. -/
def addParam (m : Method) (name : String) : Except DeclError Method :=
  match m.paramTypes[m.params.length]? with
  | some t => .ok { m.addVar name t with params := m.params ++ [m.vars.length] }
  | none => .error (.tooManyParams m.id)

end Method

namespace Class

def addField (c : Class) (name : String) (type : Ty) (isStatic : Bool) : Except DeclError Class :=
  if (c.field? name).isSome then .error (.fieldTwice ⟨c.name, name⟩)
  else .ok { c with fields := c.fields ++ [⟨⟨c.name, name⟩, type, isStatic⟩] }

def addMethod (c : Class) (m : Method) : Except DeclError Class :=
  if (c.method? m.id.subsig).isSome then .error (.methodTwice m.id)
  else .ok { c with methods := c.methods ++ [m] }

end Class

namespace Program

def addClass (p : Program) (c : Class) : Except DeclError Program :=
  if (p.class? c.name).isSome then .error (.classTwice c.name)
  else .ok { p with classes := p.classes ++ [c] }

def addEntry (p : Program) (m : MethodId) : Program :=
  { p with entries := p.entries ++ [m] }

def addImplicitEntry (p : Program) (m : MethodId) : Program :=
  { p with implicitEntries := p.implicitEntries ++ [m] }

end Program

/-- A program, possibly under construction, with the answers given so far. -/
structure Workbench where
  program : Program := Program.base
  /-- Receiver type and subsignature, with the answer that was given. -/
  remembered : List ((Ty × String) × Option MethodId) := []
  /-- Two types, with the answer whether the first is a subtype of the second. -/
  compared : List ((Ty × Ty) × Bool) := []

namespace Workbench

/-- Whether a value of the first type may be stored in a variable of the second, by the remembered
answer or by the hierarchy as it is now. What needs no look at the hierarchy is not remembered; of
two array types, the answer about their elements is remembered too. -/
def isSubtype (w : Workbench) (sub super : Ty) : Bool × Workbench :=
  if sub = super then (true, w)
  else if sub = .null then (super.isReference, w)
  else if !sub.isReference || !super.isReference then (false, w)
  else match w.compared.lookup (sub, super) with
    | some answer => (answer, w)
    | none =>
      let (answer, w) :=
        if super = .cls objectClass then (true, w)
        else match sub, super with
          | .cls a, .cls b => (w.program.reaches a b, w)
          | .array _, .cls b => (w.program.isArrayInterface b, w)
          | .array s, .array t =>
            if s.isReference && t.isReference then w.isSubtype s t else (s == t, w)
          | _, _ => (false, w)
      (answer, { w with compared := ((sub, super), answer) :: w.compared })

/-- Dispatch by the remembered answer, or by the hierarchy as it is now. Receivers without methods
are not remembered. -/
def dispatch (w : Workbench) (recv : Ty) (subsig : String) : Option MethodId × Workbench :=
  match w.remembered.lookup (recv, subsig) with
  | some answer => (answer, w)
  | none =>
    if (Program.receiverClass? recv).isSome then
      let answer := (w.program.dispatch recv subsig).map (·.id)
      (answer, { w with remembered := ((recv, subsig), answer) :: w.remembered })
    else (none, w)

end Workbench

end HeapFlow
