import HeapFlow.Result.Report

/-!
# Profiles and metrics

A profile lists what kept an analysis busy: the variables that grew most often, with and without
contexts, the methods and classes they belong to, and the largest points-to sets. Each list has the
greatest counts first, equal counts in order of name, and is cut off at a given length.

Metrics are named numbers. They carry the name of the policy, so that the metrics of several
analyses can be put together: counters and histograms of one name are added up, and of a gauge the
last value counts.
-/

namespace HeapFlow

open Text

/-! ### Profiles -/

/-- How often each element occurs, in the order of first occurrence. -/
def tally {α : Type} [DecidableEq α] (l : List α) : List (α × Nat) :=
  l.eraseDups.map fun a => (a, l.countP (· = a))

/-- The order of the lines of a profile: greater counts first, then by name. -/
def profileLE (a b : Nat × String) : Bool :=
  b.1 < a.1 || (a.1 = b.1 && textLE a.2 b.2)

def profileSection {α : Type} (n : Nat) (title : String) (name : α → String)
    (counts : List (α × Nat)) : String :=
  let lines := (counts.map fun (a, c) => (c, name a)).mergeSort profileLE
  "Top " ++ toString n ++ " " ++ title ++ ":\n" ++
  String.join ((lines.take n).map fun (c, t) => toString c ++ "\t" ++ t ++ "\n") ++ "\n"

namespace Result

def pointerText (r : Result) (p : PtrId) : String :=
  match r.registry.pointers.get? p with
  | some x => r.registry.pointerText r.program x
  | none => ""

/-- The variable pointers that grew, once for each time: pointer, context and variable. -/
def grown (r : Result) : List (PtrId × CtxId × Var) :=
  r.state.profile.grown.filterMap fun p => match r.registry.pointers.get? p with
    | some (.var c v) => some (p, c, v)
    | _ => none

/-- The profile of a result, with lists of at most `n` lines. -/
def profile (r : Result) (n : Nat) : String :=
  let vars := r.grown.map fun (_, _, v) => v
  let sizes := (List.range r.registry.pointers.size).map fun p => (p, (r.state.pointsTo p).size)
  profileSection n "frequently-visited variables" r.program.varText (tally vars) ++
  profileSection n "frequently-visited CS variables" r.pointerText
    (tally (r.grown.map fun (p, _, _) => p)) ++
  profileSection n "method containers (of frequently-visited variables)" MethodId.text
    (tally (vars.map Var.method)) ++
  profileSection n "CS method containers (of frequently-visited CS variables)"
    r.registry.methodText
    (tally (r.grown.filterMap fun (_, c, v) => r.registry.method? c v.method)) ++
  profileSection n "class containers (of frequently-visited variables)" id
    (tally (vars.map fun v => v.method.cls)) ++
  profileSection n "points-to sets" r.pointerText sizes

end Result

/-- The length of the lists of a profile when a positive one is not given. -/
def defaultProfileLength : Nat := 100

def profileLength (n : Int) : Nat :=
  if 0 < n then n.toNat else defaultProfileLength

/-! ### Metrics -/

inductive MetricValue where
  | counter (n : Nat)
  | gauge (n : Nat)
  /-- The sum and the number of observed values. -/
  | histogram (sum count : Nat)
deriving DecidableEq, Repr, Inhabited

/-- Puts two values of one metric together. -/
def MetricValue.join : MetricValue → MetricValue → MetricValue
  | counter a, counter b => counter (a + b)
  | histogram s c, histogram t d => histogram (s + t) (c + d)
  | _, b => b

structure Metric where
  name : String
  policy : String
  value : MetricValue
deriving DecidableEq, Repr, Inhabited

namespace Metric

def labelled (name policy : String) : String :=
  name ++ "\x7bselector=" ++ quote policy ++ "\x7d"

def fullName (m : Metric) : String :=
  labelled m.name m.policy

/-- The lines of a metric. A histogram without observations has none. -/
def lines (m : Metric) : List String :=
  match m.value with
  | .counter n => [m.fullName ++ " " ++ toString n]
  | .gauge n => [m.fullName ++ " " ++ toString n]
  | .histogram s c =>
    if c = 0 then []
    else [labelled (m.name ++ "_sum") m.policy ++ " " ++ toString s,
      labelled (m.name ++ "_count") m.policy ++ " " ++ toString c]

def add (ms : List Metric) (m : Metric) : List Metric :=
  if ms.any fun x => x.fullName == m.fullName then
    ms.map fun x => if x.fullName == m.fullName then { x with value := x.value.join m.value } else x
  else ms ++ [m]

/-- The lines of metrics, by full name. -/
def allLines (ms : List Metric) : List String :=
  (ms.mergeSort fun a b => textLE a.fullName b.fullName).flatMap lines

end Metric

def Result.metrics (r : Result) : List Metric :=
  let f := r.state.profile
  let counter (name : String) (n : Nat) : Metric := ⟨name, r.policy.name, .counter n⟩
  let gauge (name : String) (n : Nat) : Metric := ⟨name, r.policy.name, .gauge n⟩
  [ counter "pta_new_methods_total" f.methods,
    counter "pta_new_cs_methods_total" f.methodsIn,
    counter "pta_call_edges_total" f.calls,
    counter "pta_unresolved_calls_total" f.unresolved,
    counter "pta_initialized_classes_total" f.initialized,
    counter "pta_points_to_updates_total" f.grown.length,
    ⟨"pta_points_to_delta_size", r.policy.name, .histogram f.deltaTotal f.grown.length⟩,
    gauge "pta_pointers" r.registry.pointers.size,
    gauge "pta_objects" r.registry.objects.size,
    gauge "pta_contexts" r.registry.contexts.size,
    gauge "pta_pfg_edges" r.state.flow.size,
    gauge "pta_reachable_cs_methods" r.state.calls.reachable.length ]

end HeapFlow
