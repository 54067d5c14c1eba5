import HeapFlow.Collection.OrderedSet
import HeapFlow.Registry.Basic

/-!
# The flow graph

The nodes of the flow graph are pointers; along an edge the objects of its source flow to its
target. What flows is decided by the *transfers* attached to the edge: all objects, those of a type,
or something else. An edge is determined by its ends and its kind, and every transfer is attached to
an edge at most once.
-/

namespace HeapFlow

abbrev Objects := OrderedSet CObjId

/-- What makes an edge. -/
inductive FlowKind where
  | assign
  | cast
  | load
  | store
  | loadElem
  | storeElem
  | loadStatic
  | storeStatic
  /-- An argument that becomes a parameter. -/
  | param
  | ret
  | other
  /-- A number that names no kind. -/
  | unlisted (code : Nat)
deriving DecidableEq, Repr, Inhabited

namespace FlowKind

def ofCode : Nat → FlowKind
  | 0 => assign
  | 1 => cast
  | 2 => load
  | 3 => store
  | 4 => loadElem
  | 5 => storeElem
  | 6 => loadStatic
  | 7 => storeStatic
  | 8 => param
  | 9 => ret
  | 10 => other
  | n => unlisted n

def text : FlowKind → String
  | assign => "local-assign"
  | cast => "cast"
  | load => "instance-load"
  | store => "instance-store"
  | loadElem => "array-load"
  | storeElem => "array-store"
  | loadStatic => "static-load"
  | storeStatic => "static-store"
  | param => "parameter-passing"
  | ret => "return"
  | other => "other"
  | unlisted n => "Kind(" ++ toString n ++ ")"

end FlowKind

/-- What an edge passes on. -/
inductive Transfer where
  | all
  | ofType (t : Ty)
  /-- The object with the smallest number. -/
  | least
  | nothing
  | always (o : CObjId)
  /-- A transfer that an observer brings along, told apart by a number. -/
  | custom (key : Nat)
deriving DecidableEq, Repr, Inhabited

/-- The objects passed on when a set of objects arrives; `fits` says which objects are of a type.
What a custom transfer passes on is not known here. -/
def Transfer.apply (fits : Ty → CObjId → Bool) : Transfer → Objects → Objects
  | all, s => s
  | ofType t, s => s.filter (fits t)
  | least, s => match s.toList with
    | [] => ∅
    | o :: _ => OrderedSet.singleton o
  | nothing, _ => ∅
  | always o, _ => OrderedSet.singleton o
  | custom _, _ => ∅

/-- An edge with its transfers in the order of their attachment. -/
structure FlowEdge where
  src : PtrId
  dst : PtrId
  kind : FlowKind
  transfers : List Transfer := []
deriving DecidableEq, Repr, Inhabited

def FlowEdge.joins (e : FlowEdge) (src dst : PtrId) (kind : FlowKind) : Bool :=
  e.src = src && e.dst = dst && e.kind = kind

/-- Objects that are handed to a transfer of an edge. -/
structure Passage where
  src : PtrId
  dst : PtrId
  kind : FlowKind
  transfer : Transfer
  objects : Objects
deriving DecidableEq

/-- A passage that has happened: objects were handed to a transfer, and it gave others. -/
structure Handing extends Passage where
  given : Objects
deriving DecidableEq

/-- The edges in the order in which they were added. -/
structure FlowGraph where
  edges : List FlowEdge := []
deriving Repr, Inhabited

namespace FlowGraph

variable (g : FlowGraph)

def size : Nat :=
  g.edges.length

def find? (src dst : PtrId) (kind : FlowKind) : Option FlowEdge :=
  g.edges.find? fun e => e.joins src dst kind

def outOf (p : PtrId) : List FlowEdge :=
  g.edges.filter fun e => e.src = p

/-- Adds an edge and says whether it is new. -/
def addEdge (src dst : PtrId) (kind : FlowKind) : Bool × FlowGraph :=
  if (g.find? src dst kind).isSome then (false, g)
  else (true, { edges := g.edges ++ [{ src := src, dst := dst, kind := kind }] })

/-- Attaches a transfer to an edge that is there, and says whether the edge did not have it. -/
def addTransfer (src dst : PtrId) (kind : FlowKind) (t : Transfer) :
    Bool × FlowGraph :=
  match g.find? src dst kind with
  | none => (false, g)
  | some e =>
    if e.transfers.contains t then (false, g)
    else (true, ⟨g.edges.map fun e =>
      if e.joins src dst kind then { e with transfers := e.transfers ++ [t] } else e⟩)

/-- Adds an edge with a transfer and says whether the transfer is new to the edge. -/
def attach (src dst : PtrId) (kind : FlowKind) (t : Transfer) : Bool × FlowGraph :=
  (g.addEdge src dst kind).2.addTransfer src dst kind t

/-- What is handed to transfers when objects arrive at a pointer: the objects, for each edge that
leaves it and each transfer. -/
def passages (p : PtrId) (s : Objects) : List Passage :=
  (g.outOf p).flatMap fun e => e.transfers.map fun t => ⟨e.src, e.dst, e.kind, t, s⟩

/-- The edges by their sources; the edges of one source stay in order. -/
def bySource : List FlowEdge :=
  g.edges.mergeSort fun a b => a.src ≤ b.src

end FlowGraph

end HeapFlow
