import HeapFlow.Program.Basic
import HeapFlow.Text.Decimal

/-!
# Why a program is refused

A program source that is a well-formed document can still be refused: a name may be declared twice
or not at all, a line may not follow the grammar, a statement may use a variable in a way that its
type does not allow. The first fault in the order of reading is reported; this module names the
faults and words them.
-/

namespace HeapFlow

/-- A fault of a statement. -/
inductive StmtError where
  /-- It has none of the known shapes. -/
  | unrecognized
  /-- A name is neither a variable nor, where one could stand, a class. -/
  | unknownVariable (name : String)
  | unknownClass (name : String)
  | unknownType (name : String)
  /-- A method is called on a variable that holds no objects. -/
  | receiverType (name : String) (type : Ty)
  /-- No method has the name and the number of parameters. -/
  | noMethod (name : String) (arity : Nat) (cls : String)
  | staticReceiver (name : String)
  | noReceiver (kind : CallKind)
  /-- A static method is called with a receiver, or an instance method without. -/
  | wrongKind (kind : CallKind) (callee : MethodId)
  /-- The variable's type has no fields. -/
  | noFields (name : String)
  | noField (name cls : String)
  /-- An instance field is used through its class. -/
  | notStatic (field : FieldId)
  /-- An element of something other than an array is used. -/
  | notArray (name : String)
  | abstractAlloc (cls : String)
  /-- An integer constant is too large. -/
  | badInt (digits : String) (cause : Text.DecimalError)
  | badString
deriving DecidableEq, Repr

def StmtError.message : StmtError → String
  | unrecognized => "unrecognized statement"
  | unknownVariable n => "unknown variable " ++ n
  | unknownClass n => "unknown class " ++ n
  | unknownType n => "unknown type " ++ n
  | receiverType n t => "receiver " ++ n ++ " has non-reference type " ++ t.name
  | noMethod n k c => "no method " ++ n ++ " with " ++ toString k ++ " arguments in " ++ c
  | staticReceiver n => "static call with receiver " ++ n
  | noReceiver k => k.text ++ " call without receiver"
  | wrongKind k m => k.text ++ " call to " ++ m.text
  | noFields n => n ++ " has no fields"
  | noField n c => "no field " ++ n ++ " in " ++ c
  | notStatic f => "field " ++ f.text ++ " is not static"
  | notArray n => n ++ " is not an array"
  | abstractAlloc c => "cannot instantiate " ++ c
  | badInt d e =>
    "int literal: strconv.ParseInt: parsing " ++ Text.quote d ++ ": " ++ e.message
  | badString => "string literal: invalid syntax"

/-- A fault of the name of an entry method. -/
inductive EntryError where
  | noDot
  | unknownClass (name : String)
  | noMethod (member cls : String)
  /-- The class has several methods of the name. -/
  | overloaded (member cls : String)
deriving DecidableEq, Repr

def EntryError.message : EntryError → String
  | noDot => "expected Class.method"
  | unknownClass n => "unknown class " ++ n
  | noMethod m c => "no method " ++ m ++ " in " ++ c
  | overloaded m c => "method " ++ m ++ " is overloaded in " ++ c ++ "; use a subsignature"

inductive LoadError where
  | emptyName
  | classTwice (cls : String)
  | unknownSuper (cls super : String)
  | rootSuper (cls : String)
  | unknownInterface (cls name : String)
  /-- A class is its own superclass, directly or not. -/
  | cyclic (cls : String)
  | badField (cls text : String)
  | fieldType (cls field type : String)
  | fieldTwice (cls field : String)
  | badSignature (cls text : String)
  | returnType (cls method type : String)
  | badParam (cls method text : String)
  | paramType (cls method param type : String)
  | methodTwice (cls subsig : String)
  | badLocal (method : MethodId) (text : String)
  | localType (method : MethodId) (name type : String)
  /-- A local variable has the name of another variable. -/
  | varTwice (method : MethodId) (name : String)
  /-- An abstract or native method has statements. -/
  | noBody (method : MethodId)
  | stmt (method : MethodId) (index : Nat) (text : String) (cause : StmtError)
  | entry (text : String) (cause : EntryError)
  | implicitEntry (text : String) (cause : EntryError)
deriving DecidableEq, Repr

def LoadError.message : LoadError → String
  | emptyName => "class with empty name"
  | classTwice c => "class " ++ c ++ " declared twice"
  | unknownSuper c s => "class " ++ c ++ ": unknown superclass " ++ s
  | rootSuper c => "class " ++ c ++ " cannot have a superclass"
  | unknownInterface c i => "class " ++ c ++ ": unknown interface " ++ i
  | cyclic c => "class " ++ c ++ ": cyclic inheritance"
  | badField c t => "class " ++ c ++ ": malformed field " ++ Text.quote t
  | fieldType c f t => "class " ++ c ++ ": field " ++ f ++ ": unknown type " ++ t
  | fieldTwice c f => "class " ++ c ++ ": field " ++ f ++ " declared twice"
  | badSignature c t => "class " ++ c ++ ": malformed method signature " ++ Text.quote t
  | returnType c m t => "class " ++ c ++ ": method " ++ m ++ ": return type: unknown type " ++ t
  | badParam c m t => "class " ++ c ++ ": method " ++ m ++ ": malformed parameter " ++ Text.quote t
  | paramType c m x t =>
    "class " ++ c ++ ": method " ++ m ++ ": parameter " ++ x ++ ": unknown type " ++ t
  | methodTwice c s => "class " ++ c ++ ": method " ++ s ++ " declared twice"
  | badLocal m t => m.text ++ ": malformed local " ++ Text.quote t
  | localType m x t => m.text ++ ": local " ++ x ++ ": unknown type " ++ t
  | varTwice m x => m.text ++ ": variable " ++ x ++ " declared twice"
  | noBody m => m.text ++ ": abstract or native method with a body"
  | stmt m i t e =>
    m.text ++ ": statement " ++ toString i ++ " " ++ Text.quote t ++ ": " ++ e.message
  | entry t e => "entry " ++ Text.quote t ++ ": " ++ e.message
  | implicitEntry t e => "implicit entry " ++ Text.quote t ++ ": " ++ e.message

end HeapFlow
