import HeapFlow.CallGraph
import HeapFlow.Collection.Fifo
import HeapFlow.FlowGraph

/-!
# The work list

Two kinds of work wait to be done: objects that have to be added to a pointer, and call edges.
Objects that wait for the same pointer are joined into one entry, which keeps its place. Pointer
entries go before call edges, so a call edge is taken only when no objects wait.
-/

namespace HeapFlow

/-- A call edge with contexts. -/
abbrev CCallEdge := CallEdge CSiteId CMethodId

/-- A piece of work. -/
inductive Work where
  | objects (p : PtrId) (s : Objects)
  | call (e : CCallEdge)
deriving DecidableEq

/-- The waiting work. -/
structure WorkList where
  /-- The pointers for which objects wait, in the order of service. -/
  pointers : Fifo PtrId := Fifo.empty
  pending : List (PtrId × Objects) := []
  calls : Fifo CCallEdge := Fifo.empty

namespace WorkList

/-- The objects that wait for a pointer. -/
def waiting? (w : WorkList) (p : PtrId) : Option Objects :=
  w.pending.lookup p

/-- Lets objects wait for a pointer. -/
def addObjects (w : WorkList) (p : PtrId) (s : Objects) : WorkList :=
  match w.waiting? p with
  | some _ => { w with pending := w.pending.map fun (q, t) => (q, if q = p then t.union s else t) }
  | none => { w with pending := w.pending ++ [(p, s)], pointers := w.pointers.push p }

/-- Lets a call edge wait. -/
def addCall (w : WorkList) (e : CCallEdge) : WorkList :=
  { w with calls := w.calls.push e }

/-- Takes the next piece of work, if there is one. -/
def poll (w : WorkList) : Option (Work × WorkList) :=
  match w.pointers.pop? with
  | some (p, rest) => some (.objects p ((w.waiting? p).getD ∅),
      { w with pointers := rest, pending := w.pending.filter fun e => e.1 ≠ p })
  | none => match w.calls.pop? with
    | some (e, rest) => some (.call e, { w with calls := rest })
    | none => none

def size (w : WorkList) : Nat :=
  w.pointers.size + w.calls.size

def isEmpty (w : WorkList) : Bool :=
  w.pointers.isEmpty && w.calls.isEmpty

end WorkList

end HeapFlow
