/-!
# Types

The types of the analysed language are the nine primitive ones, the type of the null constant, the
classes and interfaces of the program, and arrays over all of these. A class is named by its name,
so two types are equal exactly when they are written alike.
-/

namespace HeapFlow

/-- The types whose values are not references. -/
inductive Prim where
  | int | long | boolean | byte | char | short | float | double | void
deriving DecidableEq, Repr

namespace Prim

def name : Prim → String
  | int => "int"
  | long => "long"
  | boolean => "boolean"
  | byte => "byte"
  | char => "char"
  | short => "short"
  | float => "float"
  | double => "double"
  | void => "void"

def all : List Prim :=
  [int, long, boolean, byte, char, short, float, double, void]

def ofName? (s : String) : Option Prim :=
  all.find? fun p => p.name == s

end Prim

/-- A type of a variable, a field or an object. -/
inductive Ty where
  | prim (p : Prim)
  /-- The type of the null constant; it is a reference type without objects. -/
  | null
  /-- A class or interface, by name. -/
  | cls (name : String)
  | array (elem : Ty)
deriving DecidableEq, Repr, Inhabited

namespace Ty

def name : Ty → String
  | prim p => p.name
  | null => "null"
  | cls c => c
  | array t => t.name ++ "[]"

def isReference : Ty → Bool
  | prim _ => false
  | _ => true

/-- Whether a variable of the type may hold objects: a reference type other than that of null. -/
def holdsObjects : Ty → Bool
  | prim _ => false
  | null => false
  | _ => true

def dims : Ty → Nat
  | array t => t.dims + 1
  | _ => 0

/-- The innermost type that is no array. -/
def base : Ty → Ty
  | array t => t.base
  | t => t

def elem? : Ty → Option Ty
  | array t => some t
  | _ => none

def isArray : Ty → Bool
  | array _ => true
  | _ => false

def arrays : Nat → Ty → Ty
  | 0, t => t
  | n + 1, t => array (arrays n t)

end Ty

/-- Strips the bracket pairs from the end of a written type, given backwards: their number and what
is left. -/
def stripBrackets : List Char → Nat × List Char
  | ']' :: '[' :: rest =>
    let (n, base) := stripBrackets rest
    (n + 1, base)
  | rest => (0, rest)

def repeated (n : Nat) (s : String) : String :=
  String.join (List.replicate n s)

end HeapFlow
