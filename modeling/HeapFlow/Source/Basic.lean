import HeapFlow.Document.Decode

/-!
# Program sources

A program is written as a document: a list of classes, each with its fields and methods, and two
lists of entry methods. Fields, signatures, local variables and statements are lines of text whose
grammar is the matter of `HeapFlow.Source.Grammar`.
-/

namespace HeapFlow

structure MethodSource where
  sig : String := ""
  locals : List String := []
  body : List String := []
deriving DecidableEq, Repr, Inhabited

structure ClassSource where
  name : String := ""
  /-- The superclass; empty for the root class. -/
  superclass : String := ""
  implements : List String := []
  isInterface : Bool := false
  isAbstract : Bool := false
  /-- Whether it belongs to a library. -/
  isLibrary : Bool := false
  fields : List String := []
  methods : List MethodSource := []
deriving DecidableEq, Repr, Inhabited

structure ProgramSource where
  classes : List ClassSource := []
  entries : List String := []
  /-- The methods that the runtime calls of its own accord. -/
  implicitEntries : List String := []
deriving DecidableEq, Repr, Inhabited

open Document

def MethodSource.decode : Decoder MethodSource := fun node => do
  let some fields ← decodePairs node | pure none
  pure (some {
    sig := ← fieldOr fields "sig" decodeText ""
    locals := ← fieldOr fields "locals" (decodeList decodeText) []
    body := ← fieldOr fields "body" (decodeList decodeText) [] })

def ClassSource.decode : Decoder ClassSource := fun node => do
  let some fields ← decodePairs node | pure none
  pure (some {
    name := ← fieldOr fields "name" decodeText ""
    superclass := ← fieldOr fields "extends" decodeText ""
    implements := ← fieldOr fields "implements" (decodeList decodeText) []
    isInterface := ← fieldOr fields "interface" decodeFlag false
    isAbstract := ← fieldOr fields "abstract" decodeFlag false
    isLibrary := ← fieldOr fields "library" decodeFlag false
    fields := ← fieldOr fields "fields" (decodeList decodeText) []
    methods := ← fieldOr fields "methods" (decodeList MethodSource.decode) [] })

namespace ProgramSource

def decode : Decoder ProgramSource := fun node => do
  let some fields ← decodePairs node | pure none
  pure (some {
    classes := ← fieldOr fields "classes" (decodeList ClassSource.decode) []
    entries := ← fieldOr fields "entries" (decodeList decodeText) []
    implicitEntries := ← fieldOr fields "implicit_entries" (decodeList decodeText) [] })

/-- Reads a program from the text of a document; the empty document is the empty program. -/
def ofText (text : String) : Except Mismatch ProgramSource :=
  Document.decodeText? decode {} text

end ProgramSource

end HeapFlow
