import HeapFlow.Result.Basic

/-!
# Asking a result

The answers about variables, about fields of what a variable holds and about fields of objects are
remembered, each kind apart from the others; answers about arrays and static fields are found anew
each time. A `Session` is a result with what is remembered so far.

Whether two variables may hold the same object is decided by looking each object of one of them up
among the objects of the other one, by halving: their numbers go up.
-/

namespace HeapFlow

/-! ### Looking up by halving -/

/-- The first place from `i` on and below `j` with an element that is not smaller than `x`, or `j`
if there is none. The elements go up. -/
def lowerBound (a : Array Nat) (x i j : Nat) : Nat :=
  if i < j then
    let middle := (i + j) / 2
    if a.getD middle 0 < x then lowerBound a x (middle + 1) j else lowerBound a x i middle
  else i
termination_by j - i

def foundByHalving (a : Array Nat) (x : Nat) : Bool :=
  a[lowerBound a x 0 a.size]? == some x

/-! ### Sessions -/

/-- The answer to a question is looked up, or else found and remembered. -/
def consult {κ α : Type} [BEq κ] (memory : List (κ × α)) (find : κ → α) (key : κ) :
    α × List (κ × α) :=
  match memory.lookup key with
  | some answer => (answer, memory)
  | none => (find key, (key, find key) :: memory)

/-- A result that is being asked. -/
structure Session where
  result : Result
  vars : List (Var × List ObjId) := []
  /-- The answers about fields of what a variable holds. -/
  varFields : List ((Var × FieldId) × List ObjId) := []
  /-- The answers about fields of objects. -/
  objFields : List ((ObjId × FieldId) × List ObjId) := []

namespace Session

def pointsTo (s : Session) (v : Var) : List ObjId × Session :=
  let (objs, vars) := consult s.vars s.result.pointsTo v
  (objs, { s with vars })

def fieldPointsTo (s : Session) (v : Var) (f : FieldId) : List ObjId × Session :=
  let (objs, varFields) := consult s.varFields (fun k => s.result.fieldPointsTo k.1 k.2) (v, f)
  (objs, { s with varFields })

def objFieldPointsTo (s : Session) (o : ObjId) (f : FieldId) : List ObjId × Session :=
  let (objs, objFields) := consult s.objFields (fun k => s.result.objFieldPointsTo k.1 k.2) (o, f)
  (objs, { s with objFields })

def elemsPointsTo (s : Session) (o : ObjId) : List ObjId :=
  s.result.elemsPointsTo o

def staticPointsTo (s : Session) (f : FieldId) : List ObjId :=
  s.result.staticPointsTo f

/-- Whether two variables may hold the same object. The second one is asked first. -/
def mayAlias (s : Session) (v w : Var) : Bool × Session :=
  let (others, s) := s.pointsTo w
  let (objs, s) := s.pointsTo v
  (objs.any (foundByHalving others.toArray), s)

end Session

end HeapFlow
