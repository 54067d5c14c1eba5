import HeapFlow.Program.Basic

/-!
# Abstract objects

The heap of a running program is abstracted by finitely many *abstract objects*: one for every
allocation statement, one for every string or class constant, and *mock* objects that models of the
analysis ask for. On request the strings are merged: all string constants into one object, all
allocated strings into another.

A `Heap` holds the objects in the order in which they were first asked for, with tables that lead
from what is asked for to the object that stands for it. Every entry leads to an object of the right
origin (`Heap.found`), and every object is found by its own entry (`Heap.kept`), so that a heap has
at most one object of an `Origin`.
-/

namespace HeapFlow

/-- The number of an abstract object in its heap. -/
abbrev ObjId := Nat

inductive ObjKind where
  | alloc
  | constant
  | mock
  /-- The objects of many statements or constants. -/
  | merged
deriving DecidableEq, Repr, Inhabited

namespace ObjKind

def text : ObjKind → String
  | alloc => "alloc"
  | constant => "constant"
  | mock => "mock"
  | merged => "merged"

def codeText : Nat → String
  | 0 => alloc.text
  | 1 => constant.text
  | 2 => mock.text
  | 3 => merged.text
  | n => "Kind(" ++ toString n ++ ")"

end ObjKind

/-- A value of any type by which a model tells its mock objects apart. A heap compares it with
others, for which it has a key, and shows it. -/
structure Token where
  key : Nat := 0
  text : String
deriving DecidableEq, Repr, Inhabited

/-- Where an abstract object comes from. -/
inductive Origin where
  | alloc (method : MethodId) (index : Nat)
  | mergedStrings
  | mergedConstants
  | constant (value : Literal)
  | mock (desc : String) (type : Ty)
  /-- A mock object that is told apart by a token. -/
  | namedMock (desc : String) (name : Token) (type : Ty)
  /-- A mock object that belongs to another object. -/
  | innerMock (desc : String) (outer : Origin) (type : Ty)
deriving DecidableEq, Repr, Inhabited

structure Obj where
  origin : Origin
  kind : ObjKind
  type : Ty
  container : Option MethodId := none
  label : String
deriving DecidableEq, Repr, Inhabited

namespace Obj

/-- The class an object is allocated in, or its own type if that is not known. -/
def containerType (o : Obj) : Ty :=
  match o.container with
  | some m => .cls m.cls
  | none => o.type

/-- The object of an allocation statement; its label counts the allocations before it. -/
def allocated (m : Method) (index : Nat) (type : Ty) : Obj where
  origin := .alloc m.id index
  kind := .alloc
  type := type
  container := some m.id
  label := m.id.text ++ "/new " ++ type.name ++ "/" ++ toString (m.allocsBefore index)

def mergedStrings : Obj where
  origin := .mergedStrings
  kind := .merged
  type := .cls stringClass
  label := "<merged String objects>"

def mergedConstants : Obj where
  origin := .mergedConstants
  kind := .merged
  type := .cls stringClass
  label := "<merged string constants>"

def constant (value : Literal) : Obj where
  origin := .constant value
  kind := .constant
  type := value.type
  label := value.text

def mock (desc : String) (type : Ty) (container : Option MethodId) : Obj where
  origin := .mock desc type
  kind := .mock
  type := type
  container := container
  label := desc ++ ":" ++ type.name

/-- The label of a mock object that is told apart by more than its description and type. -/
def qualifiedLabel (desc identity : String) (type : Ty) : String :=
  desc ++ "[" ++ identity ++ "]:" ++ type.name

def namedMock (desc : String) (name : Token) (type : Ty) (container : Option MethodId) : Obj where
  origin := .namedMock desc name type
  kind := .mock
  type := type
  container := container
  label := qualifiedLabel desc name.text type

def innerMock (desc : String) (outer : Obj) (type : Ty) (container : Option MethodId) : Obj where
  origin := .innerMock desc outer.origin type
  kind := .mock
  type := type
  container := container
  label := qualifiedLabel desc outer.label type

end Obj

/-- Which strings are merged. -/
structure Merging where
  constants : Bool := false
  allocations : Bool := false
deriving DecidableEq, Repr, Inhabited

/-- What a script can ask of the heap. -/
inductive HeapRequest where
  /-- The object of the allocation statement at a position of a method. -/
  | alloc (method : MethodId) (index : Nat)
  | constant (value : Literal)
  /-- A mock object, which may be told apart by a token. -/
  | mock (desc : String) (name : Option Token) (type : Ty) (container : Option MethodId)
deriving DecidableEq, Repr, Inhabited

/-- Why there is no object for a request. -/
inductive HeapError where
  | noConstant (value : Literal)
  | noAllocation (method : MethodId) (index : Nat)
deriving DecidableEq, Repr

def HeapError.message : HeapError → String
  | noConstant l => "no constant object for literal " ++ l.text
  | noAllocation m i => "no allocation at " ++ m.text ++ "[" ++ toString i ++ "]"

namespace Merging

/-- The object that an allocation statement asks for. -/
def allocated (g : Merging) (m : Method) (index : Nat) (type : Ty) : Obj :=
  if g.allocations && type = .cls stringClass then Obj.mergedStrings
  else Obj.allocated m index type

/-- The object that a constant asks for; only strings and class objects are objects. -/
def constant? (g : Merging) : Literal → Option Obj
  | .str bs => some (if g.constants then Obj.mergedConstants else Obj.constant (.str bs))
  | .cls t => some (Obj.constant (.cls t))
  | _ => none

end Merging

/-! ### Tables -/

/-- What tells apart the mock objects of one description and type: nothing, a token, or the object
of the heap that the mock object belongs to. -/
inductive Identity where
  | none
  | token (name : Token)
  | object (outer : ObjId)
deriving DecidableEq, Repr, Inhabited

/-- The key of a constant: a string, or a class. -/
structure ConstKey where
  str : List UInt8 := []
  class? : Option Ty := .none
deriving DecidableEq, Repr

structure MockKey where
  desc : String
  identity : Identity
  type : Ty
deriving DecidableEq, Repr

/-- What an object can be found by: an entry of one of the tables, or one of the two merged
objects. -/
inductive HeapKey where
  | alloc (method : MethodId) (index : Nat)
  | constant (key : ConstKey)
  | mock (key : MockKey)
  | mergedStrings
  | mergedConstants
deriving DecidableEq, Repr

structure HeapTables where
  allocs : List ((MethodId × Nat) × ObjId) := []
  constants : List (ConstKey × ObjId) := []
  mocks : List (MockKey × ObjId) := []
  mergedStrings? : Option ObjId := none
  mergedConstants? : Option ObjId := none

namespace HeapTables

def find? (t : HeapTables) : HeapKey → Option ObjId
  | .alloc m i => t.allocs.lookup (m, i)
  | .constant k => t.constants.lookup k
  | .mock k => t.mocks.lookup k
  | .mergedStrings => t.mergedStrings?
  | .mergedConstants => t.mergedConstants?

def enter (t : HeapTables) (o : ObjId) : HeapKey → HeapTables
  | .alloc m i => { t with allocs := ((m, i), o) :: t.allocs }
  | .constant k => { t with constants := (k, o) :: t.constants }
  | .mock k => { t with mocks := (k, o) :: t.mocks }
  | .mergedStrings => { t with mergedStrings? := some o }
  | .mergedConstants => { t with mergedConstants? := some o }

theorem find?_enter (t : HeapTables) (o : ObjId) (k k' : HeapKey) :
    (t.enter o k).find? k' = if k' = k then some o else t.find? k' := by
  cases k <;> cases k' <;> simp only [enter, find?, List.lookup_cons] <;> grind

end HeapTables

/-! ### Heaps -/

/-- An object together with its number. -/
structure Numbered where
  id : ObjId
  obj : Obj

/-- The key of an origin, where `objs` are the objects that others can belong to. -/
inductive KeyOf (objs : Array Numbered) : HeapKey → Origin → Prop where
  | alloc (m : MethodId) (i : Nat) : KeyOf objs (.alloc m i) (.alloc m i)
  | str (bs : List UInt8) : KeyOf objs (.constant { str := bs }) (.constant (.str bs))
  | cls (t : Ty) : KeyOf objs (.constant { class? := some t }) (.constant (.cls t))
  | mock (desc : String) (t : Ty) : KeyOf objs (.mock ⟨desc, .none, t⟩) (.mock desc t)
  | named (desc : String) (name : Token) (t : Ty) :
      KeyOf objs (.mock ⟨desc, .token name, t⟩) (.namedMock desc name t)
  | inner (desc : String) (t : Ty) {o : ObjId} {x : Origin}
      (hx : (objs[o]?).map (·.obj.origin) = some x) :
      KeyOf objs (.mock ⟨desc, .object o, t⟩) (.innerMock desc x t)
  | mergedStrings : KeyOf objs .mergedStrings .mergedStrings
  | mergedConstants : KeyOf objs .mergedConstants .mergedConstants

theorem KeyOf.unique {objs : Array Numbered} {k : HeapKey} {x y : Origin} (h : KeyOf objs k x)
    (h' : KeyOf objs k y) : x = y := by
  cases h with
  | inner desc t hx =>
    cases h' with
    | inner _ _ hx' => rw [Option.some.inj (hx.symm.trans hx')]
  | _ =>
    cases h'
    rfl

theorem KeyOf.push {objs : Array Numbered} {k : HeapKey} {x : Origin} (h : KeyOf objs k x)
    (y : Numbered) : KeyOf (objs.push y) k x := by
  cases h with
  | inner desc t hx =>
    obtain ⟨z, hz, hx⟩ := Option.map_eq_some_iff.mp hx
    exact .inner desc t (Option.map_eq_some_iff.mpr ⟨z, by grind, hx⟩)
  | _ => constructor

/-- The abstract objects asked for so far, in the order of the first request. -/
structure Heap where
  objs : Array Numbered
  tables : HeapTables
  ids : ∀ (i : ObjId) (x : Numbered), objs[i]? = some x → x.id = i
  /-- What is found is what was looked for, or the object of all strings for an allocation. -/
  found : ∀ k i, tables.find? k = some i → ∃ x, objs[i]? = some x ∧
    (KeyOf objs k x.obj.origin ∨ (∃ m j, k = .alloc m j) ∧ x.obj.origin = .mergedStrings)
  /-- Every object is found. -/
  kept : ∀ (i : ObjId) (x : Numbered), objs[i]? = some x →
    ∃ k, KeyOf objs k x.obj.origin ∧ tables.find? k = some i

/-- What is asked of a heap. -/
inductive Ask where
  | alloc (method : Method) (index : Nat) (type : Ty)
  | constant (value : Literal)
  | mock (desc : String) (identity : Identity) (type : Ty) (container : Option MethodId)

/-- What a request of a script asks for. -/
def HeapRequest.ask (p : Program) : HeapRequest → Except HeapError Ask
  | .alloc m i => match p.method? m, p.stmt? m i with
    | some d, some (.new _ t _) => .ok (.alloc d i t)
    | _, _ => .error (.noAllocation m i)
  | .constant (.str bs) => .ok (.constant (.str bs))
  | .constant (.cls t) => .ok (.constant (.cls t))
  | .constant l => .error (.noConstant l)
  | .mock d none t c => .ok (.mock d .none t c)
  | .mock d (some n) t c => .ok (.mock d (.token n) t c)

namespace Heap

def empty : Heap where
  objs := #[]
  tables := {}
  ids _ _ h := by simp at h
  found k i h := by cases k <;> cases h
  kept _ _ h := by simp at h

instance : EmptyCollection Heap := ⟨empty⟩

instance : Inhabited Heap := ⟨empty⟩

def size (h : Heap) : Nat :=
  h.objs.size

def get? (h : Heap) (o : ObjId) : Option Obj :=
  (h.objs[o]?).map Numbered.obj

def find? (h : Heap) (k : HeapKey) : Option ObjId :=
  h.tables.find? k

/-- Adds an object that is not there yet, and enters it under its key. -/
def add (h : Heap) (k : HeapKey) (o : Obj) (hk : KeyOf h.objs k o.origin)
    (hnew : h.find? k = none) : Heap where
  objs := h.objs.push ⟨h.size, o⟩
  tables := h.tables.enter h.size k
  ids i x hx := by
    rw [Array.getElem?_push] at hx
    split at hx
    · cases hx
      simp_all [size]
    · exact h.ids i x hx
  found k' i hi := by
    rw [HeapTables.find?_enter] at hi
    split at hi
    · next hk' =>
      cases hi
      exact ⟨_, Array.getElem?_push_size, .inl (hk' ▸ hk.push _)⟩
    · obtain ⟨x, hx, horigin⟩ := h.found k' i hi
      exact ⟨x, by grind, horigin.imp_left (·.push _)⟩
  kept i x hx := by
    rw [Array.getElem?_push] at hx
    split at hx
    · next hi =>
      cases hx
      exact ⟨k, hk.push _, by rw [HeapTables.find?_enter, if_pos rfl, hi, size]⟩
    · obtain ⟨k', hk', hi⟩ := h.kept i x hx
      have hne : k' ≠ k := by
        rintro rfl
        cases hi.symm.trans hnew
      exact ⟨k', hk'.push _, by rw [HeapTables.find?_enter, if_neg hne, hi]⟩

/-- The object with a key, which is added if it is not there yet. -/
def supply (h : Heap) (k : HeapKey) (o : Obj) (hk : KeyOf h.objs k o.origin) : ObjId × Heap :=
  match hnew : h.find? k with
  | some i => (i, h)
  | none => (h.size, h.add k o hk hnew)

theorem supply_cases (h : Heap) (k : HeapKey) (o : Obj) (hk : KeyOf h.objs k o.origin) :
    (∃ i, h.find? k = some i ∧ h.supply k o hk = (i, h)) ∨
      ∃ hnew, h.supply k o hk = (h.size, h.add k o hk hnew) := by
  unfold supply
  split
  · next i hi => exact .inl ⟨i, hi, rfl⟩
  · next hnew => exact .inr ⟨hnew, rfl⟩

theorem find?_supply (h : Heap) (k : HeapKey) (o : Obj) (hk : KeyOf h.objs k o.origin)
    (k' : HeapKey) : (h.supply k o hk).2.find? k' =
      if k' = k then some (h.supply k o hk).1 else h.find? k' := by
  rcases supply_cases h k o hk with ⟨i, hi, heq⟩ | ⟨hnew, heq⟩
  · rw [heq]
    split
    · next hk' => rw [hk', hi]
    · rfl
  · rw [heq]
    exact HeapTables.find?_enter ..

/-- Lets an allocation stand for the object of all strings. -/
def merge (h : Heap) (m : MethodId) (i : Nat) (o : ObjId) (ho : h.find? .mergedStrings = some o)
    (hnew : h.find? (.alloc m i) = none) : Heap where
  objs := h.objs
  tables := h.tables.enter o (.alloc m i)
  ids := h.ids
  found k j hj := by
    rw [HeapTables.find?_enter] at hj
    split at hj
    · next hk =>
      cases hj
      obtain ⟨x, hx, horigin | ⟨⟨m, j, hm⟩, -⟩⟩ := h.found .mergedStrings o ho
      · exact ⟨x, hx, .inr ⟨⟨m, i, hk⟩, horigin.unique .mergedStrings⟩⟩
      · cases hm
    · exact h.found k j hj
  kept j x hx := by
    obtain ⟨k, hk, hj⟩ := h.kept j x hx
    have hne : k ≠ .alloc m i := by
      rintro rfl
      cases hj.symm.trans hnew
    exact ⟨k, hk, by rw [HeapTables.find?_enter, if_neg hne, hj]⟩

def alloc (g : Merging) (h : Heap) (d : Method) (i : Nat) (t : Ty) : ObjId × Heap :=
  match hnew : h.find? (.alloc d.id i) with
  | some o => (o, h)
  | none =>
    if g.allocations && t = .cls stringClass then
      let a := h.supply .mergedStrings Obj.mergedStrings .mergedStrings
      (a.1, a.2.merge d.id i a.1 ((find?_supply ..).trans (if_pos rfl))
        ((find?_supply ..).trans ((if_neg HeapKey.noConfusion).trans hnew)))
    else (h.size, h.add (.alloc d.id i) (Obj.allocated d i t) (.alloc _ _) hnew)

/-- The mock object that belongs to an object of the heap. -/
def inner (h : Heap) (desc : String) (o : ObjId) (t : Ty) (c : Option MethodId) : ObjId × Heap :=
  match hx : h.objs[o]? with
  | some x => h.supply (.mock ⟨desc, .object o, t⟩) (Obj.innerMock desc x.obj t c)
      (.inner desc t (by rw [hx, Option.map_some]))
  | none => (h.size, h)

/-- The number of an object that is asked for. What there is no object for gets the number that the
next object will have. -/
def request (g : Merging) (h : Heap) : Ask → ObjId × Heap
  | .alloc d i t => h.alloc g d i t
  | .constant (.str bs) =>
    if g.constants then h.supply .mergedConstants Obj.mergedConstants .mergedConstants
    else h.supply (.constant { str := bs }) (Obj.constant (.str bs)) (.str bs)
  | .constant (.cls t) => h.supply (.constant { class? := some t }) (Obj.constant (.cls t)) (.cls t)
  | .constant _ => (h.size, h)
  | .mock desc .none t c => h.supply (.mock ⟨desc, .none, t⟩) (Obj.mock desc t c) (.mock desc t)
  | .mock desc (.token n) t c =>
    h.supply (.mock ⟨desc, .token n, t⟩) (Obj.namedMock desc n t c) (.named desc n t)
  | .mock desc (.object o) t c => h.inner desc o t c

end Heap

end HeapFlow
