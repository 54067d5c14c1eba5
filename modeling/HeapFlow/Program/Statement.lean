import HeapFlow.Program.Ty
import HeapFlow.Text.Quoted

/-!
# Statements

A method body is a list of statements over the variables of the method, which are named by their
position (`Slot`) in its variable list. The statements are allocations, constants, copies, casts,
loads and stores of fields and array elements, calls and returns. Array indexes and conditions are
not part of the language.
-/

namespace HeapFlow

/-- The position of a variable among the variables of its method. -/
abbrev Slot := Nat

/-- A method, by its declaring class and its *subsignature*: the name with the parameter types. -/
structure MethodId where
  cls : String
  subsig : String
deriving DecidableEq, Repr, Inhabited

namespace MethodId

def text (m : MethodId) : String :=
  m.cls ++ "." ++ m.subsig

def name (m : MethodId) : String :=
  String.ofList (m.subsig.toList.takeWhile (· ≠ '('))

end MethodId

structure FieldId where
  cls : String
  name : String
deriving DecidableEq, Repr, Inhabited

def FieldId.text (f : FieldId) : String :=
  f.cls ++ "." ++ f.name

/-- The way a call finds its target. -/
inductive CallKind where
  /-- By the class of the receiver. -/
  | virtual
  /-- By the class of the receiver, through an interface. -/
  | interface
  /-- By the written class, with a receiver. -/
  | special
  /-- By the written class, without a receiver. -/
  | static
  /-- A call made by a model; it passes no arguments and no result. -/
  | other
  /-- A number that names no kind. -/
  | unlisted (code : Nat)
deriving DecidableEq, Repr, Inhabited

namespace CallKind

def ofCode : Nat → CallKind
  | 0 => virtual
  | 1 => interface
  | 2 => special
  | 3 => static
  | 4 => other
  | n => unlisted n

def text : CallKind → String
  | virtual => "virtual"
  | interface => "interface"
  | special => "special"
  | static => "static"
  | other => "other"
  | unlisted n => "CallKind(" ++ toString n ++ ")"

end CallKind

inductive Literal where
  | str (bytes : List UInt8)
  /-- The class object of a type. -/
  | cls (type : Ty)
  | null
  | int (value : Int)
deriving DecidableEq, Repr, Inhabited

def stringClass : String := "String"

def classClass : String := "Class"

def objectClass : String := "Object"

namespace Literal

def type : Literal → Ty
  | str _ => .cls stringClass
  | cls _ => .cls classClass
  | null => .null
  | int _ => .prim .int

def text : Literal → String
  | str bs => Text.quoteBytes bs
  | cls t => t.name ++ ".class"
  | null => "null"
  | int n => toString n

end Literal

/-- A call: its kind, the method it names, and the variables it uses. -/
structure Call where
  kind : CallKind
  /-- The method named at the call: the class the search starts from and the subsignature. -/
  target : MethodId
  receiver : Option Slot := none
  args : List Slot := []
  /-- The variable that takes the result. -/
  result : Option Slot := none
deriving DecidableEq, Repr

inductive Stmt where
  /-- `dst = new type`; `dims` is the number of dimensions allocated at once. -/
  | new (dst : Slot) (type : Ty) (dims : Nat)
  | const (dst : Slot) (value : Literal)
  | copy (dst src : Slot)
  | cast (dst : Slot) (type : Ty) (src : Slot)
  /-- `dst = base.field` for an instance field. -/
  | load (dst base : Slot) (field : FieldId)
  /-- `base.field = src` for an instance field. -/
  | store (base : Slot) (field : FieldId) (src : Slot)
  /-- `dst = field` for a static field. -/
  | loadStatic (dst : Slot) (field : FieldId)
  /-- `field = src` for a static field. -/
  | storeStatic (field : FieldId) (src : Slot)
  | loadElem (dst base : Slot)
  | storeElem (base src : Slot)
  | invoke (call : Call)
  /-- `return`, with or without a value. -/
  | ret (value : Option Slot)
deriving DecidableEq, Repr

/-- The ways in which a statement goes through a variable: as the base of a field or of an element,
or as the receiver of a call. -/
inductive Use where
  | store
  | load
  | elemStore
  | elemLoad
  | call
deriving DecidableEq, Repr, Inhabited

namespace Call

/-- How a call is written, given the names of the variables. -/
def text (names : Slot → String) (c : Call) : String :=
  (match c.result with | some r => names r ++ " = " | none => "") ++
  c.kind.text ++ " " ++
  (match c.receiver with | some r => names r ++ "." | none => "") ++
  c.target.text ++ "(" ++ ", ".intercalate (c.args.map names) ++ ")"

end Call

namespace Stmt

/-- How the allocated type of an allocation is written: of an array type, the dimensions allocated
at once are shown with a bound when there are several. -/
def allocText (type : Ty) (dims : Nat) : String :=
  if type.isArray && 1 < dims then
    type.base.name ++ repeated dims "[n]" ++ repeated (type.dims - dims) "[]"
  else type.name

/-- How a statement is written, given the names of the variables. -/
def text (names : Slot → String) : Stmt → String
  | new dst type dims => names dst ++ " = new " ++ allocText type dims
  | const dst value => names dst ++ " = " ++ value.text
  | copy dst src => names dst ++ " = " ++ names src
  | cast dst type src => names dst ++ " = (" ++ type.name ++ ") " ++ names src
  | load dst base field => names dst ++ " = " ++ names base ++ "." ++ field.name
  | store base field src => names base ++ "." ++ field.name ++ " = " ++ names src
  | loadStatic dst field => names dst ++ " = " ++ field.text
  | storeStatic field src => field.text ++ " = " ++ names src
  | loadElem dst base => names dst ++ " = " ++ names base ++ "[*]"
  | storeElem base src => names base ++ "[*] = " ++ names src
  | invoke call => call.text names
  | ret none => "return"
  | ret (some v) => "return " ++ names v

def call? : Stmt → Option Call
  | invoke c => some c
  | _ => none

def returned? : Stmt → Option Slot
  | ret v => v
  | _ => none

/-- The variable that a statement goes through. -/
def use? : Stmt → Option (Use × Slot)
  | store b _ _ => some (.store, b)
  | load _ b _ => some (.load, b)
  | storeElem b _ => some (.elemStore, b)
  | loadElem _ b => some (.elemLoad, b)
  | invoke c => c.receiver.map (.call, ·)
  | _ => none

def isNew : Stmt → Bool
  | new .. => true
  | _ => false

def staticField? : Stmt → Option FieldId
  | loadStatic _ f => some f
  | storeStatic f _ => some f
  | _ => none

end Stmt

end HeapFlow
