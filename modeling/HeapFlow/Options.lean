import HeapFlow.Document.Decode
import HeapFlow.Policy

/-!
# Options of an analysis

An analysis is configured by the name of a context policy and eight switches. Options are written as
a document in which every field may be left out; a field that does not exist is an error, and the
policy is checked last.
-/

namespace HeapFlow

structure Options where
  cs : String := "ci"
  /-- The bodies of library methods are skipped. -/
  onlyApp : Bool := false
  /-- The analysis starts also from the methods that the runtime calls. -/
  implicitEntries : Bool := false
  mergeStringConstants : Bool := false
  mergeStringObjects : Bool := false
  classInit : Bool := true
  threadStart : Bool := true
  arrayCopy : Bool := true
  checkConstraints : Bool := false
deriving DecidableEq, Repr, Inhabited

/-- Why options are refused. -/
inductive OptionsError where
  /-- They are no document of the required form. -/
  | document
  | policy (cause : PolicyError)
deriving DecidableEq, Repr

def OptionsError.policyMessage (cause : PolicyError) : String :=
  "invalid options: " ++ cause.message

namespace Options

open Document

def fieldNames : List String :=
  ["cs", "only_app", "implicit_entries", "merge_string_constants", "merge_string_objects",
    "class_init", "thread_start", "array_copy", "check_constraints"]

/-- Decodes options on top of given ones; in a strict document every field has to exist. -/
def decodeOver (d : Options) (strict : Bool) : Decoder Options := fun node => do
  let some fields ← decodePairs node | pure none
  if strict then onlyFields fieldNames fields
  let flag (name : String) (default : Bool) := fieldOr fields name decodeFlag default
  pure (some {
    cs := ← fieldOr fields "cs" decodeText d.cs
    onlyApp := ← flag "only_app" d.onlyApp
    implicitEntries := ← flag "implicit_entries" d.implicitEntries
    mergeStringConstants := ← flag "merge_string_constants" d.mergeStringConstants
    mergeStringObjects := ← flag "merge_string_objects" d.mergeStringObjects
    classInit := ← flag "class_init" d.classInit
    threadStart := ← flag "thread_start" d.threadStart
    arrayCopy := ← flag "array_copy" d.arrayCopy
    checkConstraints := ← flag "check_constraints" d.checkConstraints })

/-- Checks that the policy exists. -/
def validate (o : Options) : Except OptionsError Options :=
  match Policy.parse o.cs with
  | .ok _ => .ok o
  | .error e => .error (.policy e)

def ofText (text : String) : Except OptionsError Options :=
  match decodeText? (decodeOver {} true) {} text with
  | .error _ => .error .document
  | .ok o => o.validate

/-- Which strings the options merge. -/
def merging (o : Options) : Merging where
  constants := o.mergeStringConstants
  allocations := o.mergeStringObjects

end Options

end HeapFlow
