import HeapFlow.Result.Dump

/-!
# Reports

A report sums a result up: its sizes, and on request the reachable methods and what the variables
hold, both sorted by name.
-/

namespace HeapFlow

structure Stats where
  policy : String
  methods : Nat
  methodsIn : Nat
  calls : Nat
  callsIn : Nat
  pointers : Nat
  objects : Nat
  objectsIn : Nat
  contexts : Nat
deriving DecidableEq, Repr, Inhabited

structure Holding where
  var : String
  objects : List String
deriving DecidableEq, Repr, Inhabited

structure Report where
  stats : Stats
  reachable : List String := []
  pointsTo : List Holding := []
deriving DecidableEq, Repr, Inhabited

namespace Result

def stats (r : Result) : Stats where
  policy := r.policy.name
  methods := r.reachable.length
  methodsIn := r.state.calls.reachable.length
  calls := r.callGraph.edges.length
  callsIn := r.state.calls.edges.length
  pointers := r.registry.pointers.size
  objects := r.objects.length
  objectsIn := r.registry.objects.size
  contexts := r.registry.contexts.size

/-- What the variables hold that hold something, sorted by variable. -/
def holdings (r : Result) : List Holding :=
  let held := r.vars.filterMap fun v =>
    let objs := r.pointsTo v
    if objs.isEmpty then none
    else some { var := r.program.varText v, objects := r.labels objs }
  held.mergeSort fun a b => Text.textLE a.var b.var

/-- The report of a result; only a detailed one has lists. -/
def report (r : Result) (detailed : Bool) : Report :=
  if detailed then { stats := r.stats, reachable := r.methodLines, pointsTo := r.holdings }
  else { stats := r.stats }

end Result

end HeapFlow
