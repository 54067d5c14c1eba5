import HeapFlow.Proofs.Rules

/-!
# Programs with the same classes

Classes are looked up by their names, and all else that is asked of a program is asked of classes
that have been looked up; only their number is asked for, too, as a bound on walks. So two programs
in which names have the same classes, and equally many, answer all questions alike
(`Program.Alike`). Their entry methods may differ.
-/

namespace HeapFlow

namespace Program

/-- **Two programs have the same classes.** The second one is what a question is turned to the first
from. -/
structure Alike (p q : Program) : Prop where
  class? : q.class? = p.class?
  size : q.classes.length = p.classes.length

namespace Alike

theorem refl (p : Program) : p.Alike p :=
  ⟨rfl, rfl⟩

variable {p q : Program} (h : p.Alike q)

include h

/-- Methods are found in classes that have been looked up. -/
theorem method? : q.method? = p.method? := by
  funext m
  simp only [Program.method?, h.class?]

theorem field? : q.field? = p.field? := by
  funext f
  simp only [Program.field?, h.class?]

theorem isApplication : q.isApplication = p.isApplication := by
  funext m
  simp only [Program.isApplication, h.class?]

theorem type? : q.type? = p.type? := by
  funext w
  simp only [Program.type?, h.class?]

theorem varName : q.varName = p.varName := by
  funext v
  cases v <;> simp only [Program.varName, h.method?]

theorem varType : q.varType = p.varType := by
  funext v
  cases v <;> simp only [Program.varType, h.method?]

/-- Variables are named alike. -/
theorem varText : q.varText = p.varText := by
  funext v
  simp only [Program.varText, h.varName]

theorem holdsObjects : q.holdsObjects = p.holdsObjects := by
  funext v
  simp only [Program.holdsObjects, h.varType]

theorem stmt? : q.stmt? = p.stmt? := by
  funext m i
  simp only [Program.stmt?, h.method?]

theorem call? : q.call? = p.call? := by
  funext s
  cases s <;> simp only [Program.call?, h.stmt?]

/-- Walks up the superclasses are the same, whatever their bound. -/
theorem chainFrom (n : Nat) : q.chainFrom n = p.chainFrom n := by
  induction n with
  | zero => rfl
  | succ n ih =>
    funext c
    simp only [Program.chainFrom, h.class?, ih]

theorem chain : q.chain = p.chain := by
  funext c
  simp only [Program.chain, h.size, h.chainFrom]

/-- So are searches among all that is above. -/
theorem searchFrom {α : Type} (ask : Class → Option α) (n : Nat) :
    q.searchFrom ask n = p.searchFrom ask n := by
  induction n with
  | zero => rfl
  | succ n ih =>
    funext c
    simp only [Program.searchFrom, h.chain, ih]

theorem search {α : Type} (ask : Class → Option α) : q.search ask = p.search ask := by
  funext c
  simp only [Program.search, depthBound, h.size, h.searchFrom]

theorem reachesIn (n : Nat) : q.reachesIn n = p.reachesIn n := by
  induction n with
  | zero => rfl
  | succ n ih =>
    funext a b
    simp only [Program.reachesIn, h.class?, ih]

theorem reaches : q.reaches = p.reaches := by
  funext a b
  simp only [Program.reaches, depthBound, h.size, h.reachesIn]

theorem isArrayInterface : q.isArrayInterface = p.isArrayInterface := by
  funext c
  simp only [Program.isArrayInterface, h.class?]

/-- The programs agree on subtypes. -/
theorem isSubtype : q.isSubtype = p.isSubtype := by
  funext s t
  induction s generalizing t with
  | prim | null => rfl
  | cls a => cases t <;> simp only [Program.isSubtype, h.reaches]
  | array s ih => cases t <;> simp only [Program.isSubtype, h.isArrayInterface, ih]

theorem lookupField : q.lookupField = p.lookupField := by
  funext c name
  simp only [Program.lookupField, h.chain]

theorem resolve : q.resolve = p.resolve := by
  funext m
  simp only [Program.resolve, h.search]

/-- They dispatch alike. -/
theorem dispatch : q.dispatch = p.dispatch := by
  funext t subsig
  simp only [Program.dispatch, h.search]

theorem findMethod : q.findMethod = p.findMethod := by
  funext c name arity
  simp only [Program.findMethod, h.search]

/-- The same classes are used by a statement. -/
theorem activeUses : q.activeUses = p.activeUses := by
  funext m
  have huses : q.stmtUses = p.stmtUses := by
    funext s
    cases s <;> simp only [stmtUses, h.resolve]
  simp only [Program.activeUses, huses]

theorem staticCallee? : q.staticCallee? = p.staticCallee? := by
  funext m
  simp only [Program.staticCallee?, h.resolve]

/-- Calls have the same targets. -/
theorem callee? : q.callee? = p.callee? := by
  funext c t
  simp only [Program.callee?, h.resolve, h.dispatch]

/-- Threads run the same methods. -/
theorem runMethod? : q.runMethod? = p.runMethod? := by
  funext t
  simp only [Program.runMethod?, h.dispatch]

theorem needsFinalizer : q.needsFinalizer = p.needsFinalizer := by
  funext t
  cases t <;> simp only [Program.needsFinalizer, hasFinalizers, h.method?, h.dispatch]

theorem takesArguments : q.takesArguments = p.takesArguments := by
  funext m
  simp only [Program.takesArguments, h.method?]

/-- Entry methods are given the same arrays of arguments. -/
theorem argumentsType? : q.argumentsType? = p.argumentsType? := by
  funext m
  simp only [Program.argumentsType?, h.method?]

/-- The same classes are initialized first. -/
theorem initializations : q.initializations = p.initializations := by
  funext m
  simp only [Program.initializations, h.method?, h.activeUses]

theorem hasThreads : q.hasThreads = p.hasThreads := by
  simp only [Program.hasThreads, h.method?]

theorem returnsThread : q.returnsThread = p.returnsThread := by
  funext m
  simp only [Program.returnsThread, h.method?, h.hasThreads]

/-- The programs have the same ways to copy arrays. -/
theorem hasArrayCopy : q.hasArrayCopy = p.hasArrayCopy := by
  simp only [Program.hasArrayCopy, h.method?]

theorem isArrayCopy : q.isArrayCopy = p.isArrayCopy := by
  funext c
  simp only [Program.isArrayCopy, h.resolve]

end Alike

end Program

end HeapFlow
